/-
Mining the pages that a search engine links to.

A result link has the form of a redirect.  The parser takes the redirect apart,
follows the address it contains, and records the address when its text could be
downloaded.  The check for repeats looks for the redirect itself among the
recorded addresses.
-/

import Mathlib.Data.List.Nodup
import Mathlib.Data.List.Induction
import DataSelection.Library.Strings
import DataSelection.Library.Tokens

namespace Mining

open Library (find upTo)

abbrev Url := List Char

/-- What the outside world does with an address, and the case folding of the
language.  Both downloads may raise. -/
structure Web where
  opens : Url → Bool
  parsePDF : Url → Option (List Char)
  plaintext : Url → Option (List Char)
  lower : List Char → List Char

structure Result where
  url : Url
  title : List Char
  full_text : List Char
  deriving DecidableEq

/-- The heading of a result: its text and the address it links to. -/
structure ResultTag where
  title : List Char
  href : Url
  deriving DecidableEq

/-- A tag may not be a result at all (-1), or be turned down. -/
inductive ParsedResult where
  | notWebpage
  | rejected
  | parsed (result : Result)
  deriving DecidableEq

structure GoogleParser where
  forbidden_url_phrases : List (List Char)
  visited_urls : List Url
  deriving DecidableEq

def GoogleParser.init (forbidden_phrases : List (List Char)) : GoogleParser :=
  { forbidden_url_phrases := forbidden_phrases
    visited_urls := [] }

def redirect : List Char := "/url?q=".toList

def stripRedirect (url : Url) : Url :=
  (upTo url (find url "&sa=".toList)).drop 7

def truncateAtPercent (url : Url) : Url :=
  if find url ['%'] > -1 then upTo url (find url ['%']) else url

def isForbidden (web : Web) (phrases : List (List Char)) (url : Url) : Bool :=
  phrases.any (fun phrase => find (web.lower url) (web.lower phrase) > -1)

/-- The address that can be opened: the one given, or else the part before '%'. -/
def reach (web : Web) (url : Url) : Option Url :=
  if web.opens url then some url
  else if web.opens (truncateAtPercent url) then some (truncateAtPercent url)
  else none

def parse_full_text (web : Web) (result : Result) : Option Result :=
  if ".pdf".toList.isSuffixOf result.url then
    match web.parsePDF result.url with
    | none => none
    | some text => some { result with full_text := text }
  else if ".ppt".toList.isSuffixOf result.url then some result
  else
    match web.plaintext result.url with
    | none => none
    | some text => some { result with full_text := text }

def parse_result (web : Web) (parser : GoogleParser) (outer_tag : ResultTag) : ParsedResult :=
  if outer_tag.href ∈ parser.visited_urls then .rejected
  else if redirect.isPrefixOf outer_tag.href then
    let url := stripRedirect outer_tag.href
    if isForbidden web parser.forbidden_url_phrases url then .rejected
    else
      match reach web url with
      | none => .rejected
      | some reached =>
          match parse_full_text web
            { url := reached
              title := outer_tag.title
              full_text := [] } with
          | none => .rejected
          | some result => .parsed result
  else .notWebpage

/-- One turn of the loop over the results of a page. -/
def parseNext (web : Web) (state : GoogleParser × List Result) (outer_tag : ResultTag) :
    GoogleParser × List Result :=
  match parse_result web state.1 outer_tag with
  | .notWebpage => state
  | .rejected => state
  | .parsed result =>
      ({ state.1 with visited_urls := state.1.visited_urls ++ [result.url] },
        state.2 ++ [result])

/-- A page is the list of its result tags; a query may bring back no page. -/
def parse_results_page (web : Web) (parser : GoogleParser) (html : Option (List ResultTag)) :
    GoogleParser × List Result :=
  match html with
  | none => (parser, [])
  | some tags => tags.foldl (parseNext web) (parser, [])

/-- The loop over the queries: the results of all pages are put together. -/
def mine (web : Web) (state : GoogleParser × List Result) :
    List (Option (List ResultTag)) → GoogleParser × List Result
  | [] => state
  | html :: pages =>
      let parsed := parse_results_page web state.1 html
      mine web (parsed.1, state.2 ++ parsed.2) pages

/-- The tags of all pages, in the order in which they are parsed. -/
def resultTags (pages : List (Option (List ResultTag))) : List ResultTag :=
  pages.flatMap (fun html => html.getD [])

def minePages (web : Web) (forbidden_phrases : List (List Char))
    (pages : List (Option (List ResultTag))) : GoogleParser × List Result :=
  mine web (GoogleParser.init forbidden_phrases, []) pages

def downloads (web : Web) (url : Url) : Bool :=
  if ".pdf".toList.isSuffixOf url then (web.parsePDF url).isSome
  else ".ppt".toList.isSuffixOf url || (web.plaintext url).isSome

/-- The address whose text a link brings in, whatever was visited before. -/
def address (web : Web) (phrases : List (List Char)) (tag : ResultTag) : Option Url :=
  if redirect.isPrefixOf tag.href && !isForbidden web phrases (stripRedirect tag.href) then
    (reach web (stripRedirect tag.href)).filter (downloads web)
  else none

theorem parse_full_text_url {web : Web} {result parsed : Result}
    (ran : parse_full_text web result = some parsed) : parsed.url = result.url := by
  unfold parse_full_text at ran
  split at ran
  · cases text : web.parsePDF result.url with
    | none => simp [text] at ran
    | some text' =>
        simp only [text, Option.some.injEq] at ran
        rw [← ran]
  · split at ran
    · simp only [Option.some.injEq] at ran
      rw [← ran]
    · cases text : web.plaintext result.url with
      | none => simp [text] at ran
      | some text' =>
          simp only [text, Option.some.injEq] at ran
          rw [← ran]

theorem parse_full_text_isSome (web : Web) (result : Result) :
    (parse_full_text web result).isSome = downloads web result.url := by
  unfold parse_full_text downloads
  split
  · cases web.parsePDF result.url with
    | none => rfl
    | some text => rfl
  · cases ".ppt".toList.isSuffixOf result.url with
    | true => rfl
    | false =>
        simp only [Bool.false_eq_true, if_false, Bool.false_or]
        cases web.plaintext result.url with
        | none => rfl
        | some text => rfl

theorem parse_result_cases (web : Web) (parser : GoogleParser) (tag : ResultTag) :
    (∃ result, parse_result web parser tag = .parsed result ∧ tag.href ∉ parser.visited_urls ∧
        address web parser.forbidden_url_phrases tag = some result.url) ∨
      ((∀ result, parse_result web parser tag ≠ .parsed result) ∧
        (tag.href ∈ parser.visited_urls ∨
          address web parser.forbidden_url_phrases tag = none)) := by
  unfold parse_result address
  by_cases repeated : tag.href ∈ parser.visited_urls
  · simp [repeated]
  · simp only [repeated, if_false, false_or]
    cases redirect.isPrefixOf tag.href with
    | false => simp
    | true =>
        cases isForbidden web parser.forbidden_url_phrases (stripRedirect tag.href) with
        | true => simp
        | false =>
            cases reach web (stripRedirect tag.href) with
            | none => simp
            | some reached =>
                have loaded := parse_full_text_isSome web
                  { url := reached
                    title := tag.title
                    full_text := [] }
                cases text : parse_full_text web
                    { url := reached
                      title := tag.title
                      full_text := [] } with
                | none =>
                    rw [text] at loaded
                    simp [text, ← loaded]
                | some result =>
                    rw [text] at loaded
                    have kept := parse_full_text_url text
                    simp [text, kept, ← loaded]

def afterTags (web : Web) (forbidden_phrases : List (List Char)) (tags : List ResultTag) :
    GoogleParser × List Result :=
  tags.foldl (parseNext web) (GoogleParser.init forbidden_phrases, [])

theorem afterTags_append (web : Web) (phrases : List (List Char)) (tags : List ResultTag)
    (tag : ResultTag) :
    afterTags web phrases (tags ++ [tag]) = parseNext web (afterTags web phrases tags) tag := by
  unfold afterTags
  rw [List.foldl_append, List.foldl_cons, List.foldl_nil]

theorem parseNext_results (web : Web) (parser : GoogleParser) (before results : List Result)
    (tag : ResultTag) :
    parseNext web (parser, before ++ results) tag =
      ((parseNext web (parser, results) tag).1,
        before ++ (parseNext web (parser, results) tag).2) := by
  unfold parseNext
  cases parse_result web parser tag with
  | notWebpage => rfl
  | rejected => rfl
  | parsed result => simp only [List.append_assoc]

theorem foldl_parseNext_results (web : Web) (parser : GoogleParser)
    (before results : List Result) (tags : List ResultTag) :
    tags.foldl (parseNext web) (parser, before ++ results) =
      ((tags.foldl (parseNext web) (parser, results)).1,
        before ++ (tags.foldl (parseNext web) (parser, results)).2) := by
  induction tags generalizing parser results with
  | nil => rfl
  | cons tag tags ih =>
      rw [List.foldl_cons, List.foldl_cons, parseNext_results, ih]

theorem mine_eq (web : Web) (state : GoogleParser × List Result)
    (pages : List (Option (List ResultTag))) :
    mine web state pages = (resultTags pages).foldl (parseNext web) state := by
  induction pages generalizing state with
  | nil => rfl
  | cons html pages ih =>
      have split : resultTags (html :: pages) = html.getD [] ++ resultTags pages := rfl
      rw [mine, ih, split, List.foldl_append]
      cases html with
      | none =>
          simp only [parse_results_page, List.append_nil, Option.getD_none, List.foldl_nil]
      | some tags =>
          have joined := foldl_parseNext_results web state.1 state.2 [] tags
          rw [List.append_nil] at joined
          simp only [parse_results_page, Option.getD_some, joined]

theorem minePages_eq (web : Web) (phrases : List (List Char))
    (pages : List (Option (List ResultTag))) :
    minePages web phrases pages = afterTags web phrases (resultTags pages) :=
  mine_eq web _ pages

/-- What holds after every tag: the parser keeps its phrases, and the addresses
recorded are those of the results returned. -/
structure Consistent (phrases : List (List Char)) (state : GoogleParser × List Result) :
    Prop where
  phrases : state.1.forbidden_url_phrases = phrases
  recorded : state.1.visited_urls = state.2.map Result.url

theorem parseNext_consistent {web : Web} {phrases : List (List Char)}
    {state : GoogleParser × List Result} (tag : ResultTag)
    (consistent : Consistent phrases state) : Consistent phrases (parseNext web state tag) := by
  unfold parseNext
  cases parse_result web state.1 tag with
  | notWebpage => exact consistent
  | rejected => exact consistent
  | parsed result =>
      constructor
      · exact consistent.phrases
      · simp only [List.map_append, List.map_cons, List.map_nil, consistent.recorded]

theorem afterTags_consistent (web : Web) (phrases : List (List Char)) (tags : List ResultTag) :
    Consistent phrases (afterTags web phrases tags) := by
  induction tags using List.reverseRecOn with
  | nil => exact ⟨rfl, rfl⟩
  | append_singleton tags tag ih =>
      rw [afterTags_append]
      exact parseNext_consistent tag ih

/-- A link that the repeat check lets through does not lead to a recorded address. -/
def LeadsElsewhere (web : Web) (phrases : List (List Char)) (visited_urls : List Url)
    (tag : ResultTag) : Prop :=
  tag.href ∉ visited_urls → ∀ url, address web phrases tag = some url → url ∉ visited_urls

theorem nodup_concat {urls : List Url} {url : Url} :
    (urls ++ [url]).Nodup ↔ urls.Nodup ∧ url ∉ urls := by
  rw [← List.concat_eq_append, List.nodup_concat, and_comm]

theorem parseNext_nodup_iff {web : Web} {phrases : List (List Char)}
    {state : GoogleParser × List Result} (tag : ResultTag)
    (consistent : Consistent phrases state) (distinct : state.1.visited_urls.Nodup) :
    (parseNext web state tag).1.visited_urls.Nodup ↔
      LeadsElsewhere web phrases state.1.visited_urls tag := by
  have outcome := parse_result_cases web state.1 tag
  rw [consistent.phrases] at outcome
  unfold parseNext LeadsElsewhere
  rcases outcome with ⟨result, ran, unseen, leads⟩ | ⟨unparsed, reason⟩
  · simp only [ran, leads, Option.some.injEq]
    constructor
    · intro extended _ url same
      subst url
      exact (nodup_concat.mp extended).2
    · intro elsewhere
      exact nodup_concat.mpr ⟨distinct, elsewhere unseen result.url rfl⟩
  · constructor
    · intro _ unseen url leads
      rcases reason with seen | nowhere
      · exact absurd seen unseen
      · rw [nowhere] at leads
        cases leads
    · intro _
      cases ran : parse_result web state.1 tag with
      | notWebpage => exact distinct
      | rejected => exact distinct
      | parsed result => exact absurd ran (unparsed result)

theorem parseNext_keeps_visited (web : Web) (state : GoogleParser × List Result)
    (tag : ResultTag) :
    state.1.visited_urls <+: (parseNext web state tag).1.visited_urls := by
  unfold parseNext
  cases parse_result web state.1 tag with
  | notWebpage => exact List.prefix_refl _
  | rejected => exact List.prefix_refl _
  | parsed result => exact List.prefix_append _ _

theorem afterTags_nodup_iff (web : Web) (phrases : List (List Char)) (tags : List ResultTag) :
    (afterTags web phrases tags).1.visited_urls.Nodup ↔
      ∀ before tag after, tags = before ++ tag :: after →
        LeadsElsewhere web phrases (afterTags web phrases before).1.visited_urls tag := by
  induction tags using List.reverseRecOn with
  | nil => simp [afterTags, GoogleParser.init]
  | append_singleton tags last ih =>
      have consistent := afterTags_consistent web phrases tags
      rw [afterTags_append]
      constructor
      · intro distinct before tag after split
        have earlier : (afterTags web phrases tags).1.visited_urls.Nodup :=
          distinct.sublist (parseNext_keeps_visited web _ last).sublist
        rcases List.eq_nil_or_concat after with empty | ⟨front, final, rfl⟩
        · subst empty
          rcases List.append_inj' split rfl with ⟨same, lastTag⟩
          cases lastTag
          subst same
          exact (parseNext_nodup_iff last consistent earlier).mp distinct
        · rw [List.concat_eq_append, ← List.cons_append, ← List.append_assoc] at split
          rcases List.append_inj' split rfl with ⟨same, _⟩
          exact ih.mp earlier before tag front same
      · intro elsewhere
        have earlier : (afterTags web phrases tags).1.visited_urls.Nodup := by
          apply ih.mpr
          intro before tag after split
          apply elsewhere before tag (after ++ [last])
          rw [split, List.append_assoc, List.cons_append]
        exact (parseNext_nodup_iff last consistent earlier).mpr
          (elsewhere tags last [] rfl)

/-- No address is visited or returned twice, at any moment of the run, exactly
when every link that the repeat check lets through leads elsewhere. -/
theorem minePages_visitsOnce_iff (web : Web) (forbidden_phrases : List (List Char))
    (pages : List (Option (List ResultTag))) :
    ((∀ before after, resultTags pages = before ++ after →
          (afterTags web forbidden_phrases before).1.visited_urls.Nodup) ∧
        (minePages web forbidden_phrases pages).1.visited_urls.Nodup ∧
        ((minePages web forbidden_phrases pages).2.map Result.url).Nodup) ↔
      ∀ before tag after, resultTags pages = before ++ tag :: after →
        LeadsElsewhere web forbidden_phrases
          (afterTags web forbidden_phrases before).1.visited_urls tag := by
  rw [minePages_eq, ← (afterTags_consistent web forbidden_phrases (resultTags pages)).recorded,
    ← afterTags_nodup_iff]
  constructor
  · intro holds
    exact holds.2.1
  · intro distinct
    refine ⟨?_, distinct, distinct⟩
    intro before after split
    rw [afterTags_nodup_iff] at distinct ⊢
    intro earlier tag later inBefore
    apply distinct earlier tag (later ++ after)
    rw [split, inBefore, List.append_assoc, List.cons_append]

def openWeb : Web :=
  { opens := fun _ => true
    parsePDF := fun _ => some []
    plaintext := fun _ => some []
    lower := id }

def sampleTag : ResultTag :=
  { title := []
    href := "/url?q=a&sa=U".toList }

/-- One page that shows the same link twice is mined twice. -/
theorem minePages_repeatedLink :
    (minePages openWeb [] [some [sampleTag, sampleTag]]).1.visited_urls = [['a'], ['a']] ∧
      ¬ (minePages openWeb [] [some [sampleTag, sampleTag]]).1.visited_urls.Nodup := by
  have visited : (minePages openWeb [] [some [sampleTag, sampleTag]]).1.visited_urls =
      [['a'], ['a']] := by
    decide +kernel
  constructor
  · exact visited
  · rw [visited]
    simp

theorem visited_sublist_addresses (web : Web) (phrases : List (List Char))
    (tags : List ResultTag) :
    (afterTags web phrases tags).1.visited_urls.Sublist
      (tags.filterMap (address web phrases)) := by
  induction tags using List.reverseRecOn with
  | nil => exact List.Sublist.refl []
  | append_singleton tags tag ih =>
      have consistent := afterTags_consistent web phrases tags
      have outcome := parse_result_cases web (afterTags web phrases tags).1 tag
      rw [consistent.phrases] at outcome
      rw [afterTags_append, List.filterMap_append]
      unfold parseNext
      rcases outcome with ⟨result, ran, _, leads⟩ | ⟨unparsed, _⟩
      · simp only [ran, List.filterMap_cons, leads, List.filterMap_nil]
        exact ih.append (List.Sublist.refl _)
      · have kept := ih.trans (List.sublist_append_left _ ([tag].filterMap (address web phrases)))
        cases ran : parse_result web (afterTags web phrases tags).1 tag with
        | notWebpage => exact kept
        | rejected => exact kept
        | parsed result => exact absurd ran (unparsed result)

/-- Links that lead to pairwise different addresses are visited once each. -/
theorem minePages_distinctAddresses (web : Web) (forbidden_phrases : List (List Char))
    (pages : List (Option (List ResultTag)))
    (distinct : ((resultTags pages).filterMap (address web forbidden_phrases)).Nodup) :
    (minePages web forbidden_phrases pages).1.visited_urls.Nodup := by
  rw [minePages_eq]
  exact distinct.sublist (visited_sublist_addresses web forbidden_phrases _)

end Mining
