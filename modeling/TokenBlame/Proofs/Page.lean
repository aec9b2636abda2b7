/-
# TokenBlame.Proofs.Page -- a page is read back

A reader of a page takes the text between the line of `<pre>` and the first `</pre>` behind it
(`body?`), and each line of it apart (`fragments?`): at every angle bracket first, so that a tag
holds no angle bracket and none stands outside of tags, and then the tags, which must be links
and nothing else.  Text is read last; an entity is read once, and what comes of it is not read
again (`unescape`).

Everything but the colours comes back (`page_read_back`), whatever the text is: text that looks
like an entity, a link or the end of the page was written with other characters.  Only pieces
without a commit that stand side by side cannot be told apart (`merged`).
-/
import Mathlib.Data.List.Basic
import TokenBlame.Page
import TokenBlame.Proofs.Text.Pieces

set_option autoImplicit false

namespace TokenBlame.Page

/-! ## A reader of pages -/

/-- The text behind the line of `<pre>`, up to the first `</pre>`. -/
def body? (page : String) : Option (List Char) :=
  (Pieces.splitAtFirst "<pre>\n".toList page.toList).bind fun found =>
    (Pieces.splitAtFirst "</pre>".toList found.2).map (·.1)

/-- A text with its entities read, each once. -/
def unescape : List Char → List Char
  | '&' :: 'a' :: 'm' :: 'p' :: ';' :: rest => '&' :: unescape rest
  | '&' :: 'l' :: 't' :: ';' :: rest => '<' :: unescape rest
  | '&' :: 'g' :: 't' :: ';' :: rest => '>' :: unescape rest
  | '&' :: 'q' :: 'u' :: 'o' :: 't' :: ';' :: rest => '"' :: unescape rest
  | c :: rest => c :: unescape rest
  | [] => []

/-- A tag and the text behind it, without angle brackets. -/
def tagged? (piece : List Char) : Option (List Char × List Char) :=
  match Pieces.split '>' piece with
  | [tag, text] => some (tag, text)
  | _ => none

/-- The text up to the first tag, and each tag with the text behind it. -/
def tags? (line : List Char) : Option (List Char × List (List Char × List Char)) :=
  match Pieces.split '<' line with
  | [] => none
  | front :: pieces =>
      if '>' ∈ front then none else (pieces.mapM tagged?).map fun tags => (front, tags)

/-- What stands in the tag of a link before its address. -/
def hrefName : List Char := "a href=".toList

/-- What stands there before its style. -/
def styleName : List Char := " style=".toList

/-- What stands in the style before the colour. -/
def colorName : List Char := "color: ".toList

/-- Where a link leads. -/
def href? (tag : List Char) : Option String :=
  match Pieces.split '"' tag with
  | [name, href, style, _, []] =>
      if name = hrefName ∧ style = styleName then some (String.ofList href) else none
  | _ => none

/-- Text without a commit, unless there is none. -/
def plain (text : String) : List Fragment :=
  if text = "" then [] else [⟨none, text⟩]

/-- Links, each with its end, and the text behind them. -/
def links? : List (List Char × List Char) → Option (List Fragment)
  | [] => some []
  | [_] => none
  | (tag, text) :: (stop, behind) :: rest =>
      if stop = ['/', 'a'] then
        (href? tag).bind fun id => (links? rest).map fun others =>
          ⟨some id, String.ofList (unescape text)⟩ ::
            (plain (String.ofList (unescape behind)) ++ others)
      else none

/-- The fragments of a line of a page. -/
def fragments? (line : List Char) : Option (List Fragment) :=
  (tags? line).bind fun (front, tags) => (links? tags).map fun others =>
    plain (String.ofList (unescape front)) ++ others

/-- Fragments as a page tells them: those without a commit that stand side by side are one, and
an empty one is none. -/
def merged : List Fragment → List Fragment
  | [] => []
  | ⟨some id, text⟩ :: rest => ⟨some id, text⟩ :: merged rest
  | ⟨none, text⟩ :: rest =>
      match merged rest with
      | ⟨none, more⟩ :: others => ⟨none, text ++ more⟩ :: others
      | others => plain text ++ others

/-- Whether a character can begin or end a tag. -/
def isAngle (c : Char) : Bool :=
  c == '<' || c == '>'

/-- The angle brackets of a fragment: those of the two tags of a link. -/
def brackets (fragment : Fragment) : List Char :=
  if fragment.commit.isSome then ['<', '>', '<', '>'] else []

/-! ## Text -/

theorem unescape_cons {c : Char} (plain : c ≠ '&') (rest : List Char) :
    unescape (c :: rest) = c :: unescape rest := by
  conv => lhs; unfold unescape
  split <;> simp_all

theorem unescape_escape (c : Char) (rest : List Char) :
    unescape (escape c ++ rest) = c :: unescape rest := by
  unfold escape
  split
  · subst c; rfl
  split
  · subst c; rfl
  split
  · subst c; rfl
  split
  · subst c; rfl
  · exact unescape_cons ‹_› rest

/-- A character is written as an entity, or as it is. -/
theorem mem_escape {c d : Char} (member : d ∈ escape c) :
    d ≠ '<' ∧ d ≠ '>' ∧ (d = '\n' → c = '\n') := by
  have entity : ∀ name ∈ ["&amp;", "&lt;", "&gt;", "&quot;"], ∀ e ∈ name.toList,
      e ≠ '<' ∧ e ≠ '>' ∧ (e = '\n' → c = '\n') := by
    have apart : ∀ name ∈ ["&amp;", "&lt;", "&gt;", "&quot;"],
        '<' ∉ name.toList ∧ '>' ∉ name.toList ∧ '\n' ∉ name.toList := by decide
    rintro name isName e inside
    obtain ⟨left, right, newline⟩ := apart name isName
    refine ⟨?_, ?_, ?_⟩
    · rintro rfl
      exact left inside
    · rintro rfl
      exact right inside
    · rintro rfl
      exact absurd inside newline
  unfold escape at member
  split at member
  · exact entity "&amp;" (by decide) d member
  split at member
  · exact entity "&lt;" (by decide) d member
  split at member
  · exact entity "&gt;" (by decide) d member
  split at member
  · exact entity "&quot;" (by decide) d member
  · obtain rfl := List.mem_singleton.1 member
    exact ⟨‹_›, ‹_›, id⟩

section Text

variable (text : String)

theorem toList_escapeText : (escapeText text).toList = text.toList.flatMap escape :=
  String.toList_ofList

/-- A text is read as it was, whatever stands behind it. -/
theorem unescape_escapeText (rest : List Char) :
    unescape ((escapeText text).toList ++ rest) = text.toList ++ unescape rest := by
  rw [toList_escapeText]
  induction text.toList with
  | nil => rfl
  | cons c chars ih => rw [List.flatMap_cons, List.append_assoc, unescape_escape, ih]; rfl

theorem not_mem_escapeText : '<' ∉ (escapeText text).toList ∧ '>' ∉ (escapeText text).toList := by
  rw [toList_escapeText]
  constructor
  · intro inside
    obtain ⟨c, -, member⟩ := List.mem_flatMap.1 inside
    exact (mem_escape member).1 rfl
  · intro inside
    obtain ⟨c, -, member⟩ := List.mem_flatMap.1 inside
    exact (mem_escape member).2.1 rfl

variable {text}

theorem newline_not_mem_escapeText (flat : '\n' ∉ text.toList) :
    '\n' ∉ (escapeText text).toList := by
  rw [toList_escapeText]
  intro inside
  obtain ⟨c, own, member⟩ := List.mem_flatMap.1 inside
  exact flat ((mem_escape member).2.2 rfl ▸ own)

end Text

/-! ## Tags -/

/-- A text that can be the value of an attribute. -/
def IsValue (value : String) : Prop :=
  '"' ∉ value.toList ∧ '<' ∉ value.toList ∧ '>' ∉ value.toList

instance (value : String) : Decidable (IsValue value) :=
  inferInstanceAs (Decidable (_ ∧ _))

/-- The tag that begins a link. -/
def tag (id color : String) : List Char :=
  hrefName ++ '"' :: (id.toList ++ '"' ::
    (styleName ++ '"' :: (colorName ++ color.toList ++ [';'] ++ '"' :: [])))

theorem toList_link (commits : List AttributedCommit) (id text : String) :
    (fragment commits ⟨some id, text⟩).toList =
      '<' :: (tag id (color commits id) ++ '>' ::
        ((escapeText text).toList ++ '<' :: (['/', 'a'] ++ '>' :: []))) := by
  have opens : "<a href=\"".toList = '<' :: (hrefName ++ ['"']) := rfl
  have style : "\" style=\"color: ".toList = '"' :: (styleName ++ '"' :: colorName) := rfl
  have ends : ";\">".toList = [';', '"', '>'] := rfl
  have closes : "</a>".toList = ['<', '/', 'a', '>'] := rfl
  simp only [fragment, tag, String.toList_append, opens, style, ends, closes, List.append_assoc,
    List.cons_append, List.nil_append]

section Tag

variable {id color : String}

theorem href?_tag (isId : IsValue id) (isColor : IsValue color) :
    href? (tag id color) = some id := by
  have style : '"' ∉ colorName ++ color.toList ++ [';'] := by
    simp only [List.mem_append, not_or]
    exact ⟨⟨by decide, isColor.1⟩, by decide⟩
  have cut : Pieces.split '"' (tag id color) =
      [hrefName, id.toList, styleName, colorName ++ color.toList ++ [';'], []] := by
    rw [tag, Pieces.split_behind (by decide), Pieces.split_behind isId.1,
      Pieces.split_behind (by decide), Pieces.split_behind style]
    rfl
  rw [href?, cut]
  simp

/-- What the names do not have, and the values do not have, is not in the tag. -/
theorem not_mem_tag {c : Char} (names : c ∉ hrefName ++ styleName ++ colorName ++ ['"', ';'])
    (inId : c ∉ id.toList) (inColor : c ∉ color.toList) : c ∉ tag id color := by
  simp only [List.mem_append, List.mem_cons, List.not_mem_nil, or_false, not_or] at names
  simp [tag, names, inId, inColor]

end Tag

section Tags

variable {front line text : List Char} {tags : List (List Char × List Char)}

theorem tags?_eq_some_iff : tags? line = some (front, tags) ↔
    ∃ pieces, Pieces.split '<' line = front :: pieces ∧ '>' ∉ front ∧
      pieces.mapM tagged? = some tags := by
  unfold tags?
  split
  · rename_i none
    exact absurd none (List.cons_ne_nil _ _)
  · rename_i front' pieces cut
    rw [cut]
    split
    · rename_i right
      simp only [reduceCtorEq, List.cons.injEq, false_iff, not_exists, not_and]
      rintro _ ⟨rfl, rfl⟩ flat
      exact absurd right flat
    · rename_i flat
      simp only [Option.map_eq_some_iff, Prod.mk.injEq, List.cons.injEq]
      constructor
      · rintro ⟨_, read, rfl, rfl⟩
        exact ⟨pieces, ⟨rfl, rfl⟩, flat, read⟩
      · rintro ⟨_, ⟨rfl, rfl⟩, -, read⟩
        exact ⟨tags, read, rfl, rfl⟩

/-- Text without angle brackets stands in front of the first tag. -/
theorem tags?_text (left : '<' ∉ text) (right : '>' ∉ text)
    (rest : tags? line = some (front, tags)) :
    tags? (text ++ line) = some (text ++ front, tags) := by
  obtain ⟨pieces, cut, flat, read⟩ := tags?_eq_some_iff.1 rest
  refine tags?_eq_some_iff.2 ⟨pieces, Pieces.split_extend left cut, ?_, read⟩
  simp [right, flat]

/-- A tag is cut off, and what was in front of the first tag stands behind it. -/
theorem tags?_tag (left : '<' ∉ text) (right : '>' ∉ text)
    (rest : tags? line = some (front, tags)) :
    tags? ('<' :: (text ++ '>' :: line)) = some ([], (text, front) :: tags) := by
  obtain ⟨pieces, cut, flat, read⟩ := tags?_eq_some_iff.1 rest
  have begins : Pieces.split '<' ('<' :: (text ++ '>' :: line)) =
      [] :: Pieces.split '<' (text ++ '>' :: line) := Pieces.split_behind List.not_mem_nil _
  have extended : Pieces.split '<' (text ++ '>' :: line) = (text ++ '>' :: front) :: pieces := by
    have whole : Pieces.split '<' (text ++ ['>'] ++ line) = (text ++ ['>'] ++ front) :: pieces :=
      Pieces.split_extend (by simp [left]) cut
    rwa [List.append_assoc, List.append_assoc] at whole
  have tagged : tagged? (text ++ '>' :: front) = some (text, front) := by
    rw [tagged?, Pieces.split_behind right, Pieces.split_of_not_mem flat]
  refine tags?_eq_some_iff.2 ⟨_, begins.trans (congrArg _ extended), List.not_mem_nil, ?_⟩
  rw [List.mapM_cons, tagged, read]
  rfl

/-- A link is two tags with its text between them. -/
theorem tags?_link {commits : List AttributedCommit} {id : String} (isId : IsValue id)
    (isColor : IsValue (color commits id)) (content : String)
    (rest : tags? line = some (front, tags)) :
    tags? ((fragment commits ⟨some id, content⟩).toList ++ line) =
      some ([], (tag id (color commits id), (escapeText content).toList) ::
        (['/', 'a'], front) :: tags) := by
  obtain ⟨left, right⟩ := not_mem_escapeText content
  have stop : tags? ('<' :: (['/', 'a'] ++ '>' :: line)) = some ([], (['/', 'a'], front) :: tags) :=
    tags?_tag (by decide) (by decide) rest
  have start := tags?_tag (not_mem_tag (by decide) isId.2.1 isColor.2.1)
    (not_mem_tag (by decide) isId.2.2 isColor.2.2) (tags?_text left right stop)
  rw [List.append_nil] at start
  rw [toList_link]
  simpa using start

end Tags

/-! ## Fragments -/

/-- What is written for fragments. -/
def shown (commits : List AttributedCommit) (fragments : List Fragment) : List Char :=
  fragments.flatMap fun piece => (fragment commits piece).toList

/-- Text in front of text is one text. -/
theorem merged_cons {rest others : List Fragment} {more : String}
    (tail : merged rest = plain more ++ others)
    (linked : ∀ piece ∈ others.head?, piece.commit.isSome) (text : String) :
    merged (⟨none, text⟩ :: rest) = plain (text ++ more) ++ others := by
  by_cases empty : more = ""
  · subst empty
    rw [plain, if_pos rfl, List.nil_append] at tail
    rw [merged, tail, String.append_empty]
    split
    · exact absurd (linked _ rfl) (by simp)
    · rfl
  · have some : text ++ more ≠ "" := fun none => empty (String.append_eq_empty_iff.1 none).2
    rw [plain, if_neg empty] at tail
    have one : plain (text ++ more) = [⟨none, text ++ more⟩] := if_neg some
    rw [merged, tail, one]
    rfl

/-- What is written for fragments has tags that are links, and is read as the fragments. -/
theorem links?_shown {commits : List AttributedCommit} {fragments : List Fragment}
    (ids : ∀ piece ∈ fragments, ∀ id ∈ piece.commit, IsValue id)
    (colors : ∀ id, IsValue (color commits id)) :
    ∃ front tags others, tags? (shown commits fragments) = some (front, tags) ∧
      links? tags = some others ∧
      merged fragments = plain (String.ofList (unescape front)) ++ others ∧
      ∀ piece ∈ others.head?, piece.commit.isSome := by
  induction fragments with
  | nil => exact ⟨[], [], [], rfl, rfl, rfl, by simp⟩
  | cons piece fragments ih =>
      obtain ⟨own, later⟩ := List.forall_mem_cons.1 ids
      obtain ⟨front, tags, others, cut, read, same, linked⟩ := ih later
      obtain ⟨left, right⟩ := not_mem_escapeText piece.text
      obtain ⟨commit, text⟩ := piece
      rw [shown, List.flatMap_cons]
      cases commit with
      | none =>
          have joined : String.ofList (unescape ((escapeText text).toList ++ front)) =
              text ++ String.ofList (unescape front) := by
            rw [unescape_escapeText, String.ofList_append, String.ofList_toList]
          refine ⟨(escapeText text).toList ++ front, tags, others, tags?_text left right cut, read,
            ?_, linked⟩
          rw [joined]
          exact merged_cons same linked text
      | some id =>
          have content : String.ofList (unescape (escapeText text).toList) = text := by
            have whole := unescape_escapeText text []
            rw [List.append_nil] at whole
            rw [whole, unescape, List.append_nil, String.ofList_toList]
          refine ⟨[], _, ⟨some id, text⟩ :: merged fragments,
            tags?_link (own id rfl) (colors id) text cut, ?_, rfl, by simp⟩
          rw [links?, if_pos rfl, href?_tag (own id rfl) (colors id), Option.bind_some, read,
            Option.map_some, content, same]

/-- The fragments of a line come back. -/
theorem fragments?_shown {commits : List AttributedCommit} {fragments : List Fragment}
    (ids : ∀ piece ∈ fragments, ∀ id ∈ piece.commit, IsValue id)
    (colors : ∀ id, IsValue (color commits id)) :
    fragments? (shown commits fragments) = some (merged fragments) := by
  obtain ⟨front, tags, others, cut, read, same, -⟩ := links?_shown ids colors
  rw [fragments?, cut, Option.bind_some]
  dsimp only
  rw [read, Option.map_some, same]

/-! ## Pages -/

/-- A colour is one of the table, or the one for commits that are not there. -/
theorem color_of (holds : String → Prop) {commits : List AttributedCommit}
    (default : holds defaultColor) (each : ∀ commit ∈ commits, holds commit.color) (id : String) :
    holds (color commits id) := by
  unfold color
  split
  · rename_i commit found
    exact each commit (List.mem_reverse.1 (List.mem_of_find?_eq_some found))
  · exact default

/-- Text in which the page does not end: whatever stands behind it, the end is looked for there. -/
def Passed (text : List Char) : Prop :=
  ∀ rest, Pieces.splitAtFirst "</pre>".toList (text ++ rest) =
    (Pieces.splitAtFirst "</pre>".toList rest).map fun found => (text ++ found.1, found.2)

theorem passed_flat {text : List Char} (none : '<' ∉ text) : Passed text := by
  intro rest
  refine Pieces.splitAtFirst_skip rest (by decide) fun c member same => none ?_
  rw [show c = '<' from (Option.some.inj same).symm] at member
  exact member

theorem Passed.append {front back : List Char} (first : Passed front) (second : Passed back) :
    Passed (front ++ back) := by
  intro rest
  rw [List.append_assoc, first, second, Option.map_map]
  exact congrArg (Option.map · _) (funext fun found => by simp)

theorem Passed.flatMap {α : Type} {write : α → List Char} {parts : List α}
    (each : ∀ part ∈ parts, Passed (write part)) : Passed (parts.flatMap write) := by
  induction parts with
  | nil => exact passed_flat List.not_mem_nil
  | cons part parts ih =>
      obtain ⟨own, later⟩ := List.forall_mem_cons.1 each
      exact own.append (ih later)

theorem Passed.cons {c : Char} {text : List Char} (passed : Passed text)
    (apart : ∀ rest, "</pre>".toList.isPrefixOf (c :: (text ++ rest)) = false) :
    Passed (c :: text) := by
  intro rest
  rw [List.cons_append, Pieces.splitAtFirst_cons, apart, if_neg Bool.false_ne_true, passed,
    Option.map_map]
  rfl

section Written

variable {commits : List AttributedCommit} {fragments : List Fragment}

theorem passed_fragment {piece : Fragment} (ids : ∀ id ∈ piece.commit, IsValue id)
    (colors : ∀ id, IsValue (color commits id)) : Passed (fragment commits piece).toList := by
  obtain ⟨commit, text⟩ := piece
  have flatText : Passed (escapeText text).toList := passed_flat (not_mem_escapeText text).1
  cases commit with
  | none => exact flatText
  | some id =>
      have inTag : '<' ∉ tag id (color commits id) :=
        not_mem_tag (by decide) (ids id rfl).2.1 (colors id).2.1
      have begins : ∃ rest, tag id (color commits id) = 'a' :: rest := ⟨_, rfl⟩
      obtain ⟨rest, shape⟩ := begins
      have opening : Passed ('<' :: tag id (color commits id)) :=
        (passed_flat inTag).cons fun _ => by rw [shape]; rfl
      have closing : Passed ['<', '/', 'a', '>'] := (passed_flat (by decide)).cons fun _ => rfl
      have bracket : Passed ['>'] := passed_flat (by decide)
      have whole := (opening.append bracket).append (flatText.append closing)
      rw [toList_link]
      simpa using whole

theorem passed_shown (ids : ∀ piece ∈ fragments, ∀ id ∈ piece.commit, IsValue id)
    (colors : ∀ id, IsValue (color commits id)) : Passed (shown commits fragments) :=
  Passed.flatMap fun piece member => passed_fragment (ids piece member) colors

/-- The angle brackets of fragments are those of their links. -/
theorem filter_shown (ids : ∀ piece ∈ fragments, ∀ id ∈ piece.commit, IsValue id)
    (colors : ∀ id, IsValue (color commits id)) :
    (shown commits fragments).filter isAngle = fragments.flatMap brackets := by
  have flat : ∀ {text : List Char}, '<' ∉ text → '>' ∉ text → text.filter isAngle = [] := by
    intro text left right
    refine List.filter_eq_nil_iff.2 fun c member angle => ?_
    unfold isAngle at angle
    rcases Bool.or_eq_true_iff.1 angle with same | same
    · exact left (beq_iff_eq.1 same ▸ member)
    · exact right (beq_iff_eq.1 same ▸ member)
  rw [shown, List.filter_flatMap]
  refine List.flatMap_congr fun piece member => ?_
  obtain ⟨commit, text⟩ := piece
  have own := ids _ member
  have inText := flat (not_mem_escapeText text).1 (not_mem_escapeText text).2
  cases commit with
  | none => exact inText
  | some id =>
      have inTag : (tag id (color commits id)).filter isAngle = [] :=
        flat (not_mem_tag (by decide) (own id rfl).2.1 (colors id).2.1)
          (not_mem_tag (by decide) (own id rfl).2.2 (colors id).2.2)
      have left : isAngle '<' = true := rfl
      have right : isAngle '>' = true := rfl
      have closing : ['/', 'a'].filter isAngle = [] := rfl
      rw [toList_link]
      simp only [List.filter_cons, List.filter_append, inTag, inText, closing, left, right, if_true,
        List.nil_append, List.filter_nil]
      rfl

theorem newline_not_mem_shown (texts : ∀ piece ∈ fragments, '\n' ∉ piece.text.toList)
    (ids : ∀ piece ∈ fragments, ∀ id ∈ piece.commit, '\n' ∉ id.toList)
    (colors : ∀ id, '\n' ∉ (color commits id).toList) : '\n' ∉ shown commits fragments := by
  intro inside
  obtain ⟨⟨commit, text⟩, member, own⟩ := List.mem_flatMap.1 inside
  have inText := newline_not_mem_escapeText (texts _ member)
  cases commit with
  | none => exact inText own
  | some id =>
      have inTag : '\n' ∉ tag id (color commits id) :=
        not_mem_tag (by decide) (ids _ member id rfl) (colors id)
      rw [toList_link] at own
      simp [inTag, inText] at own

end Written

/-- The text of a page. -/
def body (file : AttributedFile) : List Char :=
  file.lines.flatMap fun line => shown file.commits line.fragments ++ ['\n']

theorem toList_html (file : AttributedFile) :
    (html file).toList = top.toList ++ (body file ++ bottom.toList) := by
  have lines : (file.lines.map (line file.commits)).flatMap String.toList = body file := by
    rw [List.flatMap_map]
    refine List.flatMap_congr fun line _ => ?_
    simp [Page.line, shown, String.toList_join, List.flatMap_map]
  rw [html, String.toList_append, String.toList_append, String.toList_join, lines,
    List.append_assoc]

/-- The text of a page is found in it. -/
theorem body?_html {file : AttributedFile}
    (ids : ∀ line ∈ file.lines, ∀ piece ∈ line.fragments, ∀ id ∈ piece.commit, IsValue id)
    (colors : ∀ commit ∈ file.commits, IsValue commit.color) :
    body? (html file) = some (body file) := by
  have begins : ∀ rest, ∃ front, Pieces.splitAtFirst "<pre>\n".toList (top.toList ++ rest) =
      some (front, rest) := fun rest => ⟨_, rfl⟩
  have passed : Passed (body file) := Passed.flatMap fun line member =>
    (passed_shown (ids line member) (color_of IsValue (by decide) colors)).append
      (passed_flat (by decide))
  have ends : Pieces.splitAtFirst "</pre>".toList bottom.toList =
      some ([], "\n</body>\n</html>\n".toList) :=
    Pieces.splitAtFirst_here "</pre>".toList "\n</body>\n</html>\n".toList
  obtain ⟨front, found⟩ := begins (body file ++ bottom.toList)
  rw [body?, toList_html, found, Option.bind_some, passed, ends]
  simp

/-- **A page loses nothing.**  Between the line of `<pre>` and `</pre>` each line of the file is
written and ended by a newline, and its fragments come back from what is written: each with its
commit and its text, whatever the text is.  There are no angle brackets but those of the links.
Where ids and colours have no newlines, as texts have none, every line of the file is one line of
the page. -/
theorem page_read_back {file : AttributedFile}
    (texts : ∀ line ∈ file.lines, ∀ piece ∈ line.fragments, '\n' ∉ piece.text.toList)
    (ids : ∀ line ∈ file.lines, ∀ piece ∈ line.fragments, ∀ id ∈ piece.commit, IsValue id)
    (colors : ∀ commit ∈ file.commits, IsValue commit.color) :
    ∃ written : List (List Char),
      body? (html file) = some (written.flatMap fun line => line ++ ['\n']) ∧
      written.map fragments? = file.lines.map (fun line => some (merged line.fragments)) ∧
      (written.flatMap fun line => line ++ ['\n']).filter isAngle =
        (file.lines.flatMap (·.fragments)).flatMap brackets ∧
      ((∀ line ∈ file.lines, ∀ piece ∈ line.fragments, ∀ id ∈ piece.commit, '\n' ∉ id.toList) →
        (∀ commit ∈ file.commits, '\n' ∉ commit.color.toList) →
        Pieces.split '\n' (written.flatMap fun line => line ++ ['\n']) = written ++ [[]]) := by
  have whole : (file.lines.map fun line => shown file.commits line.fragments).flatMap
      (fun line => line ++ ['\n']) = body file := by
    rw [List.flatMap_map]
    rfl
  have values : ∀ id, IsValue (color file.commits id) := color_of IsValue (by decide) colors
  refine ⟨file.lines.map fun line => shown file.commits line.fragments, ?_, ?_, ?_, ?_⟩
  · rw [whole]
    exact body?_html ids colors
  · rw [List.map_map]
    exact List.map_congr_left fun line member => fragments?_shown (ids line member) values
  · rw [whole, body, List.filter_flatMap, List.flatMap_assoc]
    refine List.flatMap_congr fun line member => ?_
    rw [List.filter_append, filter_shown (ids line member) values]
    exact List.append_nil _
  · intro flatIds flatColors
    have flatColor : ∀ id, '\n' ∉ (color file.commits id).toList :=
      color_of (fun value => '\n' ∉ value.toList) (by decide) flatColors
    refine Pieces.split_ended (List.forall_mem_map.2 fun line member => ?_)
    exact newline_not_mem_shown (texts line member) (flatIds line member) flatColor

namespace Lookalike

/-- Text that looks like an entity, like the end of a link and like the end of the page. -/
def file : AttributedFile :=
  { path := "a", revision := "", sourceRevision := ""
    lines := [⟨1, [⟨none, "&lt;"⟩, ⟨none, ""⟩, ⟨none, "<"⟩, ⟨some "abc", "\"</a></pre>"⟩]⟩,
      ⟨2, [⟨none, ""⟩]⟩]
    commits := [⟨"abc", "def", none, none, "#123456"⟩] }

end Lookalike

/-- Such text is read back as it is. -/
theorem lookalikes_read_back :
    ∃ written, body? (html Lookalike.file) = some (written.flatMap fun line => line ++ ['\n']) ∧
      written.map fragments? =
        [some [⟨none, "&lt;<"⟩, ⟨some "abc", "\"</a></pre>"⟩], some []] ∧
      Pieces.split '\n' (written.flatMap fun line => line ++ ['\n']) = written ++ [[]] := by
  obtain ⟨written, found, read, -, cut⟩ :=
    @page_read_back Lookalike.file (by decide) (by decide) (by decide)
  exact ⟨written, found, read.trans (by decide), cut (by decide) (by decide)⟩

namespace Broken

/-- A line with a commit whose id has a newline. -/
def file : AttributedFile :=
  { path := "a", revision := "", sourceRevision := "", lines := [⟨1, [⟨some "a\nb", "x"⟩]⟩]
    commits := [] }

end Broken

/-- An id is written as it is, so a newline in it breaks the line, and neither part is read. -/
theorem newline_in_id_breaks_line :
    (∀ line ∈ Broken.file.lines, ∀ piece ∈ line.fragments, '\n' ∉ piece.text.toList) ∧
    (∀ line ∈ Broken.file.lines, ∀ piece ∈ line.fragments, ∀ id ∈ piece.commit, IsValue id) ∧
    (∀ commit ∈ Broken.file.commits, IsValue commit.color) ∧
    ∃ text, body? (html Broken.file) = some text ∧
      (Pieces.split '\n' text).length ≠ Broken.file.lines.length + 1 ∧
      (Pieces.split '\n' text).map fragments? = [none, none, some []] :=
  ⟨by decide, by decide, by decide, body Broken.file, body?_html (by decide) (by decide),
    by decide +kernel, by decide +kernel⟩

end TokenBlame.Page
