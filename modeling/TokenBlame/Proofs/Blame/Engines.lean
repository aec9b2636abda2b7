/-
# TokenBlame.Proofs.Blame.Engines -- two ways to be told where lines come from

The lines of a file have credits: each has the commit that it comes from and its number there.
Hunks tell them in runs that may come in any order (`Blame.Tells`), the line-by-line format tells
them one after the other, with the bytes of each line (`Output`).  From both the same lines are
made, numbered from one without a gap, each with the text of its own bytes (`engines_agree`).

One engine reads the file as text, cuts it and looks lines up by their numbers; the other reads
everything that it is told as text before it cuts it.  Both come to the same lines because no
newline is made or lost where bytes are read as text, and because a tab in front of a line ends
whatever stood before it.
-/
import TokenBlame.BlameEngine
import TokenBlame.Proofs.Blame.Tiling
import TokenBlame.Proofs.Porcelain.Records
import TokenBlame.Proofs.Text.Lines

set_option autoImplicit false

namespace TokenBlame

/-! ## Lines and their credits -/

/-- Where a line comes from. -/
structure Credit where
  commit : String
  /-- The number of the line, from one, in that commit. -/
  number : Nat
  deriving DecidableEq, Repr

/-- A credit that both engines can be told: the commit has an id, and the number is one of 32
bits. -/
structure Credit.IsSound (credit : Credit) : Prop where
  id : Porcelain.IsCommitId credit.commit
  number : credit.number ≤ Numeral.maxWord32

/-- The header of a line, in the line-by-line format: its credit, and its number now. -/
def Credit.header (credit : Credit) (now : Nat) : Bytes :=
  Utf8.encode (credit.commit ++ " " ++ toString credit.number ++ " " ++ toString now)

namespace Blame

/-- The lines of a file, as bytes without the newlines that end them. -/
def rawLines (content : Bytes) : List Bytes :=
  let pieces := Pieces.split 0x0A content
  if pieces.getLast? = some [] then pieces.dropLast else pieces

/-- Lines with their credits, numbered from `now`. -/
def credited (now : Nat) (raws : List Bytes) (credits : List Credit) : List BlameLine :=
  ((raws.zip credits).zipIdx now).map fun ((raw, credit), number) =>
    { commit := credit.commit, context := Utf8.decodeLossy raw, numberThen := credit.number,
      numberNow := number }

section

variable {raws : List Bytes} {credits : List Credit} {now : Nat}

theorem credited_cons (raw : Bytes) (credit : Credit) :
    credited now (raw :: raws) (credit :: credits) =
      { commit := credit.commit, context := Utf8.decodeLossy raw, numberThen := credit.number,
        numberNow := now } :: credited (now + 1) raws credits := rfl

theorem length_credited (whole : credits.length = raws.length) :
    (credited now raws credits).length = raws.length := by
  rw [credited, List.length_map, List.length_zipIdx, List.length_zip, whole, Nat.min_self]

theorem numbers_credited (whole : credits.length = raws.length) :
    (credited now raws credits).map (·.numberNow) = List.range' now raws.length := by
  have numbers : (credited now raws credits).map (·.numberNow) =
      ((raws.zip credits).zipIdx now).map Prod.snd := by
    rw [credited, List.map_map]
    rfl
  rw [numbers, List.zipIdx_map_snd, List.length_zip, whole, Nat.min_self]

theorem contexts_credited (whole : credits.length = raws.length) :
    (credited now raws credits).map (·.context) = raws.map Utf8.decodeLossy := by
  have contexts : (credited now raws credits).map (·.context) =
      ((((raws.zip credits).zipIdx now).map Prod.fst).map Prod.fst).map Utf8.decodeLossy := by
    rw [credited, List.map_map, List.map_map, List.map_map]
    rfl
  rw [contexts, List.zipIdx_map_fst, List.map_fst_zip (Nat.le_of_eq whole.symm)]

theorem credits_credited (whole : credits.length = raws.length) :
    (credited now raws credits).map (fun line => ⟨line.commit, line.numberThen⟩) = credits := by
  have own : (credited now raws credits).map
      (fun line => (⟨line.commit, line.numberThen⟩ : Credit)) =
      (((raws.zip credits).zipIdx now).map Prod.fst).map Prod.snd := by
    rw [credited, List.map_map, List.map_map]
    rfl
  rw [own, List.zipIdx_map_fst, List.map_snd_zip (Nat.le_of_eq whole)]

theorem unmodified_credited : ∀ line ∈ credited now raws credits, line.modified = false :=
  List.forall_mem_map.2 fun _ _ => rfl

theorem getElem?_credited {i : Nat} {raw : Bytes} {credit : Credit} (isLine : raws[i]? = some raw)
    (isCredit : credits[i]? = some credit) :
    (credited now raws credits)[i]? = some
      { commit := credit.commit, context := Utf8.decodeLossy raw, numberThen := credit.number,
        numberNow := now + i } := by
  have both : (raws.zip credits)[i]? = some (raw, credit) :=
    List.getElem?_zip_eq_some.2 ⟨isLine, isCredit⟩
  rw [credited, List.getElem?_map, List.getElem?_zipIdx, both]
  rfl

/-! ## Cutting and reading -/

/-- The lines of a file, one by one. -/
theorem rawLines_append {head : Bytes} (flat : ∀ b ∈ head, decide (b = 0x0A) = false)
    (rest : Bytes) : rawLines (head ++ 0x0A :: rest) = head :: rawLines rest := by
  have cut := Pieces.splitBy_append flat (s := 0x0A) (by decide) rest
  have some : Pieces.splitBy (fun b => decide (b = 0x0A)) rest ≠ [] := List.cons_ne_nil _ _
  obtain ⟨piece, pieces, shape⟩ := List.exists_cons_of_ne_nil some
  unfold rawLines Pieces.split
  rw [cut, shape]
  dsimp only
  rw [List.getLast?_cons_cons, List.dropLast_cons_cons]
  split <;> rfl

theorem rawLines_flat {text : Bytes} (flat : ∀ b ∈ text, decide (b = 0x0A) = false) :
    rawLines text = if text = [] then [] else [text] := by
  unfold rawLines Pieces.split
  rw [Pieces.splitBy_of_none flat]
  cases text <;> simp

/-- No line has a newline. -/
theorem flat_rawLines {content raw : Bytes} (member : raw ∈ rawLines content) : 0x0A ∉ raw := by
  have piece : raw ∈ Pieces.split 0x0A content := by
    unfold rawLines at member
    dsimp only at member
    split at member
    · exact List.dropLast_subset _ member
    · exact member
  exact Pieces.not_mem_of_mem_split piece

/-- A file may be read as text and cut, or the other way round; an empty one has no lines. -/
theorem cut_decodeLossyChars {content : Bytes} (nonempty : content ≠ []) :
    Lines.cut (Utf8.decodeLossyChars content) =
      (rawLines content).map Utf8.decodeLossyChars := by
  induction content using Lines.line_induction (p := fun b : UInt8 => decide (b = 0x0A)) with
  | flat text flat =>
      rw [Lines.cut_flat (Lines.flat_decodeLossyChars flat), rawLines_flat flat, if_neg nonempty]
      rfl
  | line head newline rest flat here ih =>
      obtain rfl : newline = 0x0A := of_decide_eq_true here
      have joined : Utf8.decodeLossyChars (head ++ 0x0A :: rest) =
          Utf8.decodeLossyChars head ++ '\n' :: Utf8.decodeLossyChars rest :=
        Utf8.decodeLossyChars_append_ascii head (by decide) rest
      rw [joined, Lines.cut_append (Lines.flat_decodeLossyChars flat), rawLines_append flat,
        List.map_cons]
      refine congrArg (List.cons _) ?_
      by_cases last : rest = []
      · subst last
        rfl
      · rw [if_neg (fun none => last (Utf8.decodeLossyChars_eq_nil_iff.1 none)), ih last]

theorem lines_eq {content : Bytes} (nonempty : content ≠ []) :
    BlameEngine.lines content = (rawLines content).map Utf8.decodeLossy := by
  rw [BlameEngine.lines, cut_decodeLossyChars nonempty, List.map_map]
  rfl

/-! ## Hunks -/

/-- Hunks that tell the credits of all lines, each once; they may come in any order. -/
structure Tells (hunks : List Hunk) (credits : List Credit) : Prop where
  tiles : Tiles hunks credits.length
  own : ∀ hunk ∈ hunks, ∀ i < hunk.count,
    credits[hunk.startNow + i - 1]? = some ⟨hunk.record.id, hunk.startThen + i⟩

/-- The lines of a blame are those that its hunks tell. -/
theorem lines_ofHunks {content : Bytes} {hunks : List Hunk} {credits : List Credit}
    (whole : credits.length = (rawLines content).length) (tells : Tells hunks credits) :
    (ofHunks (BlameEngine.lines content) hunks).lines = credited 1 (rawLines content) credits := by
  have count : (ofHunks (BlameEngine.lines content) hunks).lines.length = credits.length :=
    length_ofHunks _ tells.tiles
  have blamed := numbers_ofHunks (BlameEngine.lines content) tells.tiles
  apply List.ext_getElem?
  intro i
  by_cases inside : i < credits.length
  · have rawInside : i < (rawLines content).length := by rwa [← whole]
    have nonempty : content ≠ [] := by
      rintro rfl
      exact Nat.not_lt_zero i rawInside
    have bound : i < (ofHunks (BlameEngine.lines content) hunks).lines.length := by rwa [count]
    obtain ⟨line, found⟩ : ∃ line,
        (ofHunks (BlameEngine.lines content) hunks).lines[i]? = some line :=
      ⟨_, List.getElem?_eq_getElem bound⟩
    have number : line.numberNow = 1 + i := by
      have here := congrArg (·[i]?) blamed
      simp only [List.getElem?_map, found, Option.map_some, List.getElem?_range' inside] at here
      simpa using here
    obtain ⟨hunk, isHunk, own⟩ := mem_lines_ofHunks.1 (List.mem_of_getElem? found)
    obtain ⟨j, within, rfl⟩ := List.mem_map.1 own
    have credit := tells.own hunk isHunk j (List.mem_range.1 within)
    dsimp only at number
    have place : hunk.startNow + j - 1 = i := by omega
    rw [place] at credit
    rw [found, getElem?_credited (List.getElem?_eq_getElem rawInside) credit]
    simp [number, lines_eq nonempty, rawInside]
  · have outside : credits.length ≤ i := Nat.le_of_not_lt inside
    rw [List.getElem?_eq_none (by rwa [count]),
      List.getElem?_eq_none (by rwa [length_credited whole, ← whole])]

/-! ## The line-by-line format -/

/-- What a header may have behind its numbers. -/
structure IsBehind (tail : Bytes) : Prop where
  flat : 0x0A ∉ tail
  apart : ∀ b ∈ tail.head?, b = 0x20

/-- A line that tells of a commit, in whatever bytes: it has no tab in front. -/
structure IsDetail (line : Bytes) : Prop where
  flat : 0x0A ∉ line
  noTab : line.head? ≠ some 0x09

/-- The lines of an output that tells the credits of lines, which are numbered from `now`. -/
inductive Output : Nat → List Credit → List Bytes → List Bytes → Prop
  | done {now : Nat} : Output now [] [] []
  | record {now : Nat} {credit : Credit} {credits : List Credit} {raw : Bytes}
      {raws told output : List Bytes} {tail : Bytes} :
      IsBehind tail → (∀ line ∈ told, IsDetail line) → Output (now + 1) credits raws output →
      Output now (credit :: credits) (raw :: raws)
        ((credit.header now ++ tail) :: told ++ [0x09 :: raw] ++ output)

theorem Output.length_eq {output : List Bytes} (written : Output now credits raws output) :
    credits.length = raws.length := by
  induction written with
  | done => rfl
  | record _ _ _ ih => exact congrArg (· + 1) ih

/-- No line of the output has a newline. -/
theorem Output.flat {output : List Bytes} (written : Output now credits raws output)
    (sound : ∀ credit ∈ credits, credit.IsSound) (flat : ∀ raw ∈ raws, 0x0A ∉ raw) :
    ∀ line ∈ output, 0x0A ∉ line := by
  induction written with
  | done => exact fun line member => absurd member List.not_mem_nil
  | @record now credit credits raw raws told output tail behind details _ ih =>
      obtain ⟨own, others⟩ := List.forall_mem_cons.1 sound
      obtain ⟨flatRaw, flatRaws⟩ := List.forall_mem_cons.1 flat
      have flatHeader : 0x0A ∉ credit.header now := by
        intro inside
        obtain ⟨c, member, written⟩ := List.mem_flatMap.1 inside
        obtain rfl : c = '\n' :=
          Char.toNat_inj.1 (Utf8.toNat_of_mem_encodeChar written (by decide))
        have flatLine : '\n' ∉ Porcelain.headerLine credit.commit credit.number now [] :=
          Porcelain.flat_headerLine own.id List.not_mem_nil
        rw [Porcelain.headerLine, List.append_nil] at flatLine
        exact flatLine member
      intro line member
      simp only [List.mem_append, List.mem_cons, List.not_mem_nil, or_false] at member
      rcases member with ((rfl | inTold) | rfl) | later
      · exact fun inside => (List.mem_append.1 inside).elim flatHeader behind.flat
      · exact (details line inTold).flat
      · simp [flatRaw]
      · exact ih others flatRaws line later

/-- A header is read as text; what is behind it stays apart. -/
theorem header_decodeLossyChars {credit : Credit} (sound : credit.IsSound)
    (fits : now ≤ Numeral.maxWord32) {tail : Bytes} (behind : IsBehind tail) :
    Porcelain.header (Utf8.decodeLossyChars (credit.header now ++ tail)) =
      .ok ⟨credit.commit, credit.number, now⟩ := by
  have apart : ∀ c ∈ (Utf8.decodeLossyChars tail).head?, Blank.isBlank c = true := by
    cases tail with
    | nil => simp
    | cons b tail =>
        obtain rfl : b = 0x20 := behind.apart b rfl
        have space : Utf8.decodeLossyChars (0x20 :: tail) = ' ' :: Utf8.decodeLossyChars tail :=
          Utf8.decodeLossyChars_append_ascii [] (by decide) tail
        rw [space]
        simp
        decide
  rw [Credit.header, Utf8.encode, Utf8.decodeLossyChars_encodeChars]
  exact Porcelain.header_headerLine sound.id sound.number fits apart

theorem IsDetail.noTab_decodeLossyChars {line : Bytes} (detail : IsDetail line) :
    (Utf8.decodeLossyChars line).head? ≠ some '\t' := by
  cases line with
  | nil => simp
  | cons b line =>
      obtain ⟨first, rest, shape, cases⟩ := Utf8.head_decodeLossyChars b line
      rw [shape, List.head?_cons]
      rintro ⟨rfl⟩
      rcases cases with wide | same
      · exact absurd wide (by decide)
      · refine detail.noTab (congrArg some (UInt8.toNat_inj.1 ?_))
        have valid : b.toNat.isValidChar := by
          have := b.toNat_lt
          simp only [Nat.isValidChar]
          omega
        rw [← Utf8.toNat_ofNat valid, ← same]
        rfl

/-- Every record gives the line of its bytes with its credit, whatever the reader knows. -/
theorem readLines_output {output : List Bytes} (written : Output now credits raws output)
    (sound : ∀ credit ∈ credits, credit.IsSound)
    (fits : now + credits.length ≤ Numeral.maxWord32 + 1) (read : List BlameLine)
    (found : Table String BlameCommit) :
    ∃ known, Porcelain.readLines ⟨none, read, found⟩ (output.map Utf8.decodeLossyChars) =
      .ok ⟨none, (credited now raws credits).reverse ++ read, known⟩ := by
  induction written generalizing read found with
  | done => exact ⟨found, rfl⟩
  | @record now credit credits raw raws told output tail behind details _ ih =>
      obtain ⟨own, others⟩ := List.forall_mem_cons.1 sound
      rw [List.length_cons] at fits
      have isHeader := header_decodeLossyChars own (by omega : now ≤ Numeral.maxWord32) behind
      have noTab : ∀ line ∈ told.map Utf8.decodeLossyChars, line.head? ≠ some '\t' :=
        List.forall_mem_map.2 fun line member => (details line member).noTab_decodeLossyChars
      have tab : Utf8.decodeLossyChars (0x09 :: raw) = '\t' :: Utf8.decodeLossyChars raw :=
        Utf8.decodeLossyChars_append_ascii [] (by decide) raw
      have one := Porcelain.readLines_record read found isHeader noTab
        (Utf8.decodeLossyChars raw)
      obtain ⟨known, rest⟩ := ih others (by omega) _ _
      refine ⟨known, ?_⟩
      rw [List.map_append, List.map_append, List.map_cons, List.map_singleton, tab,
        Porcelain.readLines_append one, rest, credited_cons, List.reverse_cons, List.append_assoc]
      rfl

/-- An output is read as the lines that it tells. -/
theorem readOutput_output {output : List Bytes} (written : Output 1 credits raws output)
    (sound : ∀ credit ∈ credits, credit.IsSound) (fits : credits.length ≤ Numeral.maxWord32)
    (flat : ∀ raw ∈ raws, 0x0A ∉ raw) :
    ∃ read, BlameEngine.readOutput (output.flatMap fun line => line ++ [0x0A]) = .ok read ∧
      read.lines = credited 1 raws credits := by
  obtain ⟨known, lines⟩ := readLines_output written sound (by omega) [] ∅
  have cut : Pieces.split '\n' (Utf8.decodeLossyChars (output.flatMap fun line => line ++ [0x0A])) =
      output.map Utf8.decodeLossyChars ++ [[]] := by
    rw [Lines.split_decodeLossyChars, Pieces.split_ended (written.flat sound flat),
      List.map_append]
    rfl
  refine ⟨⟨credited 1 raws credits, known⟩, ?_, rfl⟩
  have initial : ({} : Porcelain.Reader) = ⟨none, [], ∅⟩ := rfl
  rw [BlameEngine.readOutput, Porcelain.parse, Utf8.decodeLossy, String.toList_ofList, cut, initial,
    Porcelain.readLines_append lines]
  -- behind the last newline stands a blank line
  show Porcelain.Reader.finish ⟨none, _, known⟩ = _
  simp [Porcelain.Reader.finish]

/-- **The two engines agree** on the lines of a file, whatever its bytes are: told the same
credits, one by hunks in any order and the other line by line, they make the same lines, one for
each line of the file, numbered from one, with the text of its bytes and its credit. -/
theorem engines_agree {content : Bytes} (sound : ∀ credit ∈ credits, credit.IsSound)
    (fits : credits.length ≤ Numeral.maxWord32) {hunks : List Hunk} (tells : Tells hunks credits)
    {output : List Bytes} (written : Output 1 credits (rawLines content) output) :
    ∃ read, BlameEngine.readOutput (output.flatMap fun line => line ++ [0x0A]) = .ok read ∧
      read.lines = (ofHunks (BlameEngine.lines content) hunks).lines ∧
      read.lines.map (·.numberNow) = List.range' 1 (rawLines content).length ∧
      read.lines.map (·.context) = (rawLines content).map Utf8.decodeLossy ∧
      read.lines.map (fun line => ⟨line.commit, line.numberThen⟩) = credits ∧
      ∀ line ∈ read.lines, line.modified = false := by
  have whole := written.length_eq
  obtain ⟨read, parsed, lines⟩ :=
    readOutput_output written sound fits fun raw => flat_rawLines
  refine ⟨read, parsed, ?_⟩
  rw [lines_ofHunks whole tells, lines]
  exact ⟨rfl, numbers_credited whole, contexts_credited whole, credits_credited whole,
    unmodified_credited⟩

end

namespace Shuffled

/-- A file without a newline at its end.  Its second line breaks off in the middle of a
character, its third begins with a tab. -/
def content : Bytes :=
  [0x61, 0x0A, 0xE6, 0x97, 0x0A, 0x09, 0xFF]

def first : Credit :=
  ⟨"1111111111111111111111111111111111111111", 4⟩

def second : Credit :=
  ⟨"2222222222222222222222222222222222222222", 1⟩

/-- Two commits by turns. -/
def credits : List Credit :=
  [first, second, { first with number := 5 }]

/-- Hunks in another order than the lines. -/
def hunks : List Hunk :=
  [⟨{ id := second.commit }, 2, 1, 1⟩, ⟨{ id := first.commit }, 3, 5, 1⟩,
    ⟨{ id := first.commit }, 1, 4, 1⟩]

/-- What is told line by line; the name of an author is no text. -/
def output : List Bytes :=
  [first.header 1 ++ Utf8.encode " 1", Utf8.encode "author " ++ [0xE9], Utf8.encode "summary",
    [0x09, 0x61], second.header 2 ++ [], [0x09, 0xE6, 0x97],
    { first with number := 5 }.header 3 ++ [], [0x09, 0x09, 0xFF]]

theorem tells : Tells hunks credits where
  tiles := by decide
  own := by decide

theorem written : Output 1 credits (rawLines content) output := by
  have raws : rawLines content = [[0x61], [0xE6, 0x97], [0x09, 0xFF]] := by decide
  have count : IsBehind (Utf8.encode " 1") := ⟨by decide, by rintro b ⟨⟩; rfl⟩
  have nothing : IsBehind [] := ⟨List.not_mem_nil, by simp⟩
  have details : ∀ line ∈ [Utf8.encode "author " ++ [0xE9], Utf8.encode "summary"],
      IsDetail line :=
    List.forall_mem_cons.2 ⟨⟨by decide, by decide⟩,
      List.forall_mem_singleton.2 ⟨by decide, by decide⟩⟩
  rw [raws]
  exact .record count details (.record nothing (fun _ none => absurd none List.not_mem_nil)
    (.record nothing (fun _ none => absurd none List.not_mem_nil) .done))

end Shuffled

/-- Hunks out of order and lines that are no text. -/
theorem shuffled_hunks_agree :
    Tells Shuffled.hunks Shuffled.credits ∧
    Output 1 Shuffled.credits (rawLines Shuffled.content) Shuffled.output ∧
    ∃ read, BlameEngine.readOutput (Shuffled.output.flatMap fun line => line ++ [0x0A]) =
        .ok read ∧
      read.lines = (ofHunks (BlameEngine.lines Shuffled.content) Shuffled.hunks).lines ∧
      read.lines.map (·.context) = ["a", "\uFFFD", "\t\uFFFD"] := by
  have sound : ∀ credit ∈ Shuffled.credits, credit.IsSound :=
    List.forall_mem_cons.2 ⟨⟨by decide, by decide⟩, List.forall_mem_cons.2
      ⟨⟨by decide, by decide⟩, List.forall_mem_singleton.2 ⟨by decide, by decide⟩⟩⟩
  obtain ⟨read, parsed, same, -, contexts, -⟩ :=
    engines_agree sound (by decide) Shuffled.tells Shuffled.written
  exact ⟨Shuffled.tells, Shuffled.written, read, parsed, same, contexts.trans (by decide +kernel)⟩

end Blame

end TokenBlame
