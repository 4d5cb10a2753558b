import Mathlib
import StackTape.Bytecode.Source
import StackTape.Proofs.Text.Decimal

/-!
# Source texts written and read back

An instruction is written as a line of words (`Source.spelling`) that read back as it
(`Instr.ofFields_spelling`), if they are tokens.  What is read has tokens for operands
(`Source.isToken_of_parse`), so code is read back from its text just if its operands are tokens and
no line is too long (`Source.parse_format_iff`).

Writing respells what was read: it indents, sets one space between words and writes the shortest
digits.  A line grows by at most the indentation (`Source.length_lineOf_le`), and that is enough for
code that was read not to be readable once it is written (`Source.parse_format_overlong`).
-/

namespace StackTape

/-! ### Lines -/

namespace Bytes

/-- Text is split at its first separator. -/
theorem splitOn_append_cons {c : UInt8} {b : Bytes} (h : c ∉ b) (rest : Bytes) :
    splitOn c (b ++ c :: rest) = b :: splitOn c rest := by
  induction b with
  | nil => rw [List.nil_append, splitOn, if_pos rfl]
  | cons a b ih =>
      rw [List.mem_cons, not_or] at h
      rw [List.cons_append, splitOn, if_neg (Ne.symm h.1), ih h.2]

/-- Lines that are written one after another are split again. -/
theorem splitOn_flatMap_line {lines : List Bytes} (h : ∀ l ∈ lines, newline ∉ l) :
    splitOn newline (lines.flatMap line) = lines ++ [[]] := by
  induction lines with
  | nil => rfl
  | cons l lines ih =>
      rw [List.forall_mem_cons] at h
      rw [List.flatMap_cons, line, List.append_assoc, List.singleton_append,
        splitOn_append_cons h.1, ih h.2, List.cons_append]

end Bytes

theorem Lines.raw_flatMap_line {lines : List Bytes} (h : ∀ l ∈ lines, Bytes.newline ∉ l) :
    Lines.raw (lines.flatMap Bytes.line) = lines := by
  rw [raw, Bytes.splitOn_flatMap_line h]
  simp

/-- A token has no ASCII white space. -/
theorem IsToken.not_mem {w : Bytes} (hw : IsToken w) {c : UInt8} (hc : c ≤ 0x7F)
    (hblank : isBlankCode c.toNat = true) : c ∉ w := by
  intro hm
  obtain ⟨front, back, rfl⟩ := List.append_of_mem hm
  have hsolid := hw.solid ⟨[c], some c.toNat⟩ <| by
    rw [Utf8.runes_append (Utf8.isTail_ascii hc), Utf8.runes_ascii_cons hc]
    simp
  exact Bool.false_ne_true (hsolid.symm.trans hblank)

namespace Source

/-! ### The words of a line -/

/-- The words of a line before its comment. -/
def words (line : Bytes) : List Bytes := Bytes.fields (line.takeWhile (· ≠ 0x23))

/-- A line is read by its words, the comment apart. -/
theorem parse_content (line : Bytes) :
    Instr.parse (content line) = Instr.ofFields (words line) := by
  rw [Instr.parse, content, Bytes.fields_trim, words]

/-- A line is skipped if it has no words. -/
theorem content_isEmpty_iff {line : Bytes} : (content line).isEmpty = true ↔ words line = [] := by
  rw [List.isEmpty_iff, content, Bytes.trim_eq_nil_iff, words]

theorem isToken_of_mem_words {w line : Bytes} (h : w ∈ words line) : IsToken w :=
  Bytes.isToken_of_mem_fields h fun hm => by
    have := List.mem_takeWhile_imp hm
    simp at this

/-- The words of a line, one blank between them, are no longer than the line. -/
theorem length_join_words (line : Bytes) : (Bytes.join [0x20] (words line)).length ≤ line.length :=
  (Bytes.length_join_fields _).trans (List.takeWhile_prefix _).length_le

theorem words_of_not_mem {line : Bytes} (h : 0x23 ∉ line) : words line = line.fields := by
  rw [words, List.takeWhile_eq_self_iff.mpr]
  intro c hc
  simpa using fun he : c = 0x23 => h (he ▸ hc)

/-- The carriage return of a line end is white space to the words. -/
theorem words_dropReturn (line : Bytes) : words (Lines.dropReturn line) = words line := by
  unfold Lines.dropReturn Bytes.dropLast?
  split_ifs with h
  · obtain ⟨front, rfl⟩ := List.getLast?_eq_some_iff.mp h
    rw [List.dropLast_concat, Option.getD_some, words, words, List.takeWhile_append]
    split_ifs with hlength
    · have hall : front.takeWhile (· ≠ 0x23) = front :=
        (List.takeWhile_prefix _).eq_of_length hlength
      have hreturn : [0x0D].takeWhile (· ≠ (0x23 : UInt8)) = [0x0D] := rfl
      rw [hall, hreturn, Bytes.fields_append_blank (by decide) rfl]
    · rfl
  · rfl

/-! ### The line of an instruction -/

/-- The line of an instruction without its end. -/
def lineOf : Instr → Bytes
  | .label name => name ++ [0x3A]
  | i => Bytes.repeated 4 0x20 ++ i.text

/-- Code is formatted line by line. -/
theorem format_eq (code : List Instr) : format code = (code.map lineOf).flatMap Bytes.line := by
  rw [format, List.flatMap_map]
  congr 1
  funext i
  cases i <;> rfl

theorem isToken_name (op : Opcode) : IsToken op.name := by
  have hletters : op.name ≠ [] ∧ ∀ c ∈ op.name, (0x24 : UInt8) ≤ c ∧ c ≤ 0x7F := by
    cases op <;> decide +kernel
  exact isToken_of_ascii hletters.1 hletters.2

theorem isToken_label {name : Bytes} (h : IsToken name) : IsToken (name ++ [0x3A]) where
  nonempty := by simp
  uncommented := by simpa using h.uncommented
  solid := by
    rw [Utf8.runes_append (by decide), Utf8.runes_ascii_cons (by decide), Utf8.runes_nil]
    intro r hr
    rcases List.mem_append.mp hr with hr | hr
    · exact h.solid r hr
    · rw [List.mem_singleton.mp hr]
      rfl

/-- The words on the line of an instruction. -/
def spelling : Instr → List Bytes
  | .label name => [name ++ [0x3A]]
  | i => i.opcode.name :: i.operands

/-- Every word of an instruction is a token if its operands are. -/
theorem isToken_of_mem_spelling {i : Instr} (h : ∀ w ∈ i.operands, IsToken w) :
    ∀ w ∈ spelling i, IsToken w := by
  cases i
  case label name => exact List.forall_mem_singleton.mpr (isToken_label (h name List.mem_cons_self))
  all_goals exact List.forall_mem_cons.mpr ⟨isToken_name _, h⟩

/-- Words with a space between neighbours, behind `n` spaces. -/
def indented (n : Nat) (ws : List Bytes) : Bytes :=
  List.replicate n 0x20 ++ Bytes.join [0x20] ws

/-- A line is indented by at most four blanks. -/
theorem lineOf_eq (i : Instr) : ∃ n ≤ 4, lineOf i = indented n (spelling i) := by
  cases i
  case label name => exact ⟨0, Nat.zero_le 4, rfl⟩
  all_goals exact ⟨4, le_refl 4, rfl⟩

theorem not_mem_indented {c : UInt8} (hc : c ≠ 0x20) {ws : List Bytes} (h : ∀ w ∈ ws, c ∉ w)
    (n : Nat) : c ∉ indented n ws := by
  have hjoin : c ∉ Bytes.join [0x20] ws := by
    fun_induction Bytes.join [0x20] ws with
    | case1 => simp
    | case2 w => exact h w (by simp)
    | case3 w ws hne ih =>
        rw [List.forall_mem_cons] at h
        simp [h.1, hc, ih h.2]
  simp [indented, hc, hjoin]

/-- Tokens are the words of the line that they make. -/
theorem words_indented {ws : List Bytes} (h : ∀ w ∈ ws, IsToken w) (n : Nat) :
    words (indented n ws) = ws := by
  rw [words_of_not_mem (not_mem_indented (by decide) (fun w hw => (h w hw).uncommented) n)]
  induction n with
  | zero => exact Bytes.fields_join h
  | succ n ih => rwa [indented, List.replicate_succ, List.cons_append, Bytes.fields_space_cons]

/-- It is one line. -/
theorem newline_not_mem_indented {ws : List Bytes} (h : ∀ w ∈ ws, IsToken w) (n : Nat) :
    Bytes.newline ∉ indented n ws :=
  not_mem_indented (by decide) (fun w hw => (h w hw).not_mem (by decide) rfl) n

end Source

/-! ### Words and instructions -/

namespace Instr

/-- The name of an opcode is found in the catalogue. -/
theorem ofFields_name (op : Opcode) (args : List Bytes) :
    ofFields (op.name :: args) = ofWords op args := by
  have hname : Opcode.ofName? op.name = some op ∧ labelWord? op.name = none := by
    cases op <;> decide +kernel
  cases args with
  | nil => simp only [ofFields, hname]
  | cons arg args => simp only [ofFields, hname.1]

/-- An instruction is read back from its own operands. -/
theorem ofWords_operands (i : Instr) : ofWords i.opcode i.operands = .ok i := by
  cases i <;> simp only [opcode, operands, ofWords, Decimal.parse_ofWord]

/-- A label is a word with a colon behind it. -/
theorem eq_append_of_labelWord? {word name : Bytes} (h : labelWord? word = some name) :
    word = name ++ [0x3A] ∧ name ≠ [] := by
  unfold labelWord? Bytes.dropLast? at h
  split_ifs at h with hlength hlast
  obtain ⟨front, rfl⟩ := List.getLast?_eq_some_iff.mp hlast
  rw [List.dropLast_concat, Option.some.injEq] at h
  subst h
  refine ⟨rfl, fun he => ?_⟩
  simp [he] at hlength

theorem labelWord?_append {name : Bytes} (h : name ≠ []) :
    labelWord? (name ++ [0x3A]) = some name := by
  have hlength := List.length_pos_iff.mpr h
  simp [labelWord?, Bytes.dropLast?, hlength]

/-- **An instruction is read back from its own words.** -/
theorem ofFields_spelling {i : Instr} (h : ∀ w ∈ i.operands, IsToken w) :
    ofFields (Source.spelling i) = .ok i := by
  cases i
  case label name =>
    have hname := (h name List.mem_cons_self).nonempty
    simp only [Source.spelling, ofFields, labelWord?_append hname]
  all_goals exact (ofFields_name _ _).trans (ofWords_operands _)

/-- The word `w` is how the argument `arg` is written: as it stands, or by the digits of the number
it is read as. -/
def Respelled (arg w : Bytes) : Prop :=
  w = arg ∨ ∃ n, Decimal.parse arg = .ok n ∧ w = Decimal.ofWord n

theorem Respelled.isToken {arg w : Bytes} (h : Respelled arg w) (ha : IsToken arg) : IsToken w := by
  rcases h with rfl | ⟨n, -, rfl⟩
  · exact ha
  · exact Decimal.isToken_ofWord n

/-- Operands that were tokens still are. -/
theorem isToken_of_respelled {args ws : List Bytes} (h : List.Forall₂ Respelled args ws)
    (ha : ∀ arg ∈ args, IsToken arg) : ∀ w ∈ ws, IsToken w := by
  induction h with
  | nil => simp
  | cons hw _ ih =>
      rw [List.forall_mem_cons] at ha ⊢
      exact ⟨hw.isToken ha.1, ih ha.2⟩

/-- A number is not longer after it is read and written again. -/
theorem Respelled.length_le {arg w : Bytes} (h : Respelled arg w) : w.length ≤ arg.length := by
  rcases h with rfl | ⟨n, hn, rfl⟩
  · exact le_refl _
  · exact Decimal.length_ofWord_le hn

/-- What is read has the opcode and, up to how numbers are written, the operands. -/
theorem ofWords_eq_ok {op : Opcode} {args : List Bytes} {i : Instr}
    (h : ofWords op args = .ok i) : i.opcode = op ∧ List.Forall₂ Respelled args i.operands := by
  have hsame : ∀ ws : List Bytes, List.Forall₂ Respelled ws ws := fun ws =>
    List.forall₂_same.mpr fun _ _ => .inl rfl
  unfold ofWords at h
  split at h
  case h_1 name size | h_2 name size =>
    split at h
    case h_2 => cases h
    case h_1 n hn =>
      cases h
      exact ⟨rfl, .cons (.inl rfl) (.cons (.inr ⟨n, hn, rfl⟩) .nil)⟩
  all_goals
    cases h
    try exact ⟨rfl, hsame _⟩

/-- What a list of words that is an instruction looks like. -/
theorem ofFields_eq_ok {ws : List Bytes} {i : Instr} (h : ofFields ws = .ok i) :
    (∃ name, ws = [name ++ [0x3A]] ∧ name ≠ [] ∧ i = .label name) ∨
      ∃ args, ws = i.opcode.name :: args ∧ List.Forall₂ Respelled args i.operands := by
  have hnamed : ∀ {word op args}, Opcode.ofName? word = some op → ofWords op args = .ok i →
      ∃ args', word :: args = i.opcode.name :: args' ∧ List.Forall₂ Respelled args' i.operands := by
    intro word op args hop hi
    obtain ⟨rfl, hargs⟩ := ofWords_eq_ok hi
    have hname := List.find?_some hop
    rw [decide_eq_true_eq] at hname
    exact ⟨args, by rw [hname], hargs⟩
  unfold ofFields at h
  split at h
  · cases h
  · split at h
    · rename_i word _ name hname
      obtain ⟨rfl, hne⟩ := eq_append_of_labelWord? hname
      exact .inl ⟨name, rfl, hne, (Except.ok.inj h).symm⟩
    · split at h
      · rename_i op hop
        exact .inr (hnamed hop h)
      · cases h
  · split at h
    · rename_i op hop
      exact .inr (hnamed hop h)
    · cases h

/-- Tokens are read as an instruction with tokens for operands. -/
theorem isToken_of_ofFields {ws : List Bytes} {i : Instr} (h : ofFields ws = .ok i)
    (hws : ∀ w ∈ ws, IsToken w) : ∀ w ∈ i.operands, IsToken w := by
  rcases ofFields_eq_ok h with ⟨name, rfl, hne, rfl⟩ | ⟨args, rfl, hargs⟩
  · have hword := List.forall_mem_singleton.mp hws
    refine List.forall_mem_singleton.mpr ⟨hne, fun hm => hword.uncommented (by simp [hm]), ?_⟩
    intro r hr
    apply hword.solid
    rw [Utf8.runes_append (by decide)]
    exact List.mem_append_left _ hr
  · exact isToken_of_respelled hargs (List.forall_mem_cons.mp hws).2

end Instr

namespace Source

theorem length_join_le {ws ws' : List Bytes}
    (h : List.Forall₂ (fun w w' => w'.length ≤ w.length) ws ws') :
    (Bytes.join [0x20] ws').length ≤ (Bytes.join [0x20] ws).length := by
  induction h with
  | nil => exact le_refl _
  | cons hw hws ih =>
      cases hws with
      | nil => exact hw
      | cons hw' hws =>
          simp only [Bytes.join, List.length_append] at ih ⊢
          omega

/-- A line is at most four bytes longer than the instruction. -/
theorem length_lineOf (i : Instr) : (lineOf i).length ≤ i.text.length + 4 := by
  obtain ⟨n, hn, he⟩ := lineOf_eq i
  -- `name:` is shorter than `label name`
  have hspelling : (Bytes.join [0x20] (spelling i)).length ≤ i.text.length := by
    cases i
    case label name =>
      simp only [spelling, Instr.text, Instr.opcode, Instr.operands, Bytes.join, List.length_append,
        List.length_singleton]
      omega
    all_goals exact le_refl _
  rw [he, indented, List.length_append, List.length_replicate]
  omega

/-- Writing an instruction takes at most the indentation more than the words it was read from. -/
theorem length_lineOf_le {ws : List Bytes} {i : Instr} (h : Instr.ofFields ws = .ok i) :
    (lineOf i).length ≤ (Bytes.join [0x20] ws).length + 4 := by
  rcases Instr.ofFields_eq_ok h with ⟨name, rfl, hne, rfl⟩ | ⟨args, rfl, hargs⟩
  · exact Nat.le_add_right _ _
  · have hline := length_lineOf i
    have hwords : i.text.length ≤ (Bytes.join [0x20] (i.opcode.name :: args)).length :=
      length_join_le (.cons (le_refl _) (hargs.imp fun _ _ hr => hr.length_le))
    omega

/-! ### Reading lines -/

theorem parseLines_cons {number : Nat} {line : Bytes} {rest : List Bytes} {i : Instr}
    {code : List Instr} (h : Instr.ofFields (words line) = .ok i)
    (hrest : parseLines (number + 1) rest = .ok code) :
    parseLines number (line :: rest) = .ok (i :: code) := by
  have hcontent : ¬(content line).isEmpty = true := by
    rw [content_isEmpty_iff]
    intro he
    rw [he] at h
    cases h
  rw [parseLines, if_neg hcontent, parse_content, h, hrest]

/-- Lines that read as the instructions of some code read as the code. -/
theorem parseLines_map {code : List Instr} {text : Instr → Bytes}
    (h : ∀ i ∈ code, Instr.ofFields (words (text i)) = .ok i) (number : Nat) :
    parseLines number (code.map text) = .ok code := by
  induction code generalizing number with
  | nil => rfl
  | cons i code ih =>
      rw [List.forall_mem_cons] at h
      exact parseLines_cons h.1 (ih h.2 (number + 1))

/-- Every instruction that is read stands on a line. -/
theorem exists_line_of_parseLines {number : Nat} {lines : List Bytes} {code : List Instr}
    (h : parseLines number lines = .ok code) :
    ∀ i ∈ code, ∃ line ∈ lines, Instr.ofFields (words line) = .ok i := by
  induction lines generalizing number code with
  | nil =>
      cases h
      simp
  | cons line rest ih =>
      have hlater : ∀ {i}, (∃ l ∈ rest, Instr.ofFields (words l) = .ok i) →
          ∃ l ∈ line :: rest, Instr.ofFields (words l) = .ok i :=
        fun ⟨l, hl, he⟩ => ⟨l, List.mem_cons_of_mem _ hl, he⟩
      rw [parseLines, parse_content] at h
      split_ifs at h
      · exact fun i hi => hlater (ih h i hi)
      cases hline : Instr.ofFields (words line) with
      | error cause => simp [hline] at h
      | ok i =>
          cases hrest : parseLines (number + 1) rest with
          | error e => simp [hline, hrest] at h
          | ok code' =>
              rw [hline, hrest] at h
              cases h
              exact List.forall_mem_cons.mpr
                ⟨⟨line, List.mem_cons_self, hline⟩, fun i hi => hlater (ih hrest i hi)⟩

/-- Reading stops at a line that does not fit the limit. -/
theorem overlong_read (src : Bytes) : (Lines.read src).overlong = true ↔
    ¬∀ line ∈ Lines.raw src, line.length < Lines.limit := by
  have hshort := (List.takeWhile_prefix (fun l => decide (l.length < Lines.limit))
    (l := Lines.raw src)).length_le
  rw [Lines.read, decide_eq_true_eq, ← not_le, not_iff_not]
  constructor
  · intro hle
    have he := (List.takeWhile_prefix _).eq_of_length (hshort.antisymm hle)
    simpa using List.takeWhile_eq_self_iff.mp he
  · intro h
    rw [List.takeWhile_eq_self_iff.mpr (by simpa using h)]

/-- A text is read just if no line is too long and its lines are read. -/
theorem parse_eq_ok {src : Bytes} {code : List Instr} : parse src = .ok code ↔
    (∀ line ∈ Lines.raw src, line.length < Lines.limit) ∧
      parseLines 1 ((Lines.raw src).map Lines.dropReturn) = .ok code := by
  rw [parse]
  by_cases hfit : ∀ line ∈ Lines.raw src, line.length < Lines.limit
  · have hlines : (Lines.read src).lines = (Lines.raw src).map Lines.dropReturn := by
      rw [Lines.read, List.takeWhile_eq_self_iff.mpr (by simpa using hfit)]
    have hshort : (Lines.read src).overlong = false :=
      Bool.eq_false_iff.mpr fun he => (overlong_read src).mp he hfit
    rw [hlines, hshort, and_iff_right hfit]
    cases parseLines 1 ((Lines.raw src).map Lines.dropReturn) <;> simp
  · rw [(overlong_read src).mpr hfit]
    cases parseLines 1 (Lines.read src).lines <;> simp [hfit]

/-- A line that fits the limit is read on its own. -/
theorem parse_line {line : Bytes} {i : Instr} (hline : Bytes.newline ∉ line)
    (hfit : line.length < Lines.limit) (h : Instr.ofFields (words line) = .ok i) :
    parse (Bytes.line line) = .ok [i] := by
  have hraw := Lines.raw_flatMap_line (List.forall_mem_singleton.mpr hline)
  rw [List.flatMap_singleton] at hraw
  rw [parse_eq_ok, hraw]
  exact ⟨List.forall_mem_singleton.mpr hfit, parseLines_cons (words_dropReturn line ▸ h) rfl⟩

/-- An instruction that was read stands on a line. -/
theorem exists_line_of_parse {src : Bytes} {code : List Instr} (h : parse src = .ok code) :
    ∀ i ∈ code, ∃ line ∈ Lines.raw src, Instr.ofFields (words line) = .ok i := by
  intro i hi
  obtain ⟨line, hline, he⟩ := exists_line_of_parseLines (parse_eq_ok.mp h).2 i hi
  obtain ⟨l, hl, rfl⟩ := List.mem_map.mp hline
  exact ⟨l, hl, words_dropReturn l ▸ he⟩

/-- What is read has tokens for operands. -/
theorem isToken_of_parse {src : Bytes} {code : List Instr} (h : parse src = .ok code) :
    ∀ i ∈ code, ∀ w ∈ i.operands, IsToken w := by
  intro i hi
  obtain ⟨line, -, he⟩ := exists_line_of_parse h i hi
  exact Instr.isToken_of_ofFields he fun w hw => isToken_of_mem_words hw

/-! ### Written and read back -/

/-- The lines of formatted code are those that were written. -/
theorem raw_format {code : List Instr} (h : ∀ i ∈ code, ∀ w ∈ i.operands, IsToken w) :
    Lines.raw (format code) = code.map lineOf := by
  rw [format_eq, Lines.raw_flatMap_line]
  intro line hline
  obtain ⟨i, hi, rfl⟩ := List.mem_map.mp hline
  obtain ⟨n, -, he⟩ := lineOf_eq i
  exact he ▸ newline_not_mem_indented (isToken_of_mem_spelling (h i hi)) n

/-- Code with tokens for operands is read back from its text, unless a line is too long. -/
theorem parse_format {code : List Instr} (h : ∀ i ∈ code, ∀ w ∈ i.operands, IsToken w) :
    parse (format code) =
      if ∀ line ∈ Lines.raw (format code), line.length < Lines.limit then .ok code
      else .error .overlong := by
  have hread : ∀ i ∈ code, Instr.ofFields (words ((Lines.dropReturn ∘ lineOf) i)) = .ok i := by
    intro i hi
    obtain ⟨n, -, he⟩ := lineOf_eq i
    rw [Function.comp_apply, words_dropReturn, he,
      words_indented (isToken_of_mem_spelling (h i hi)), Instr.ofFields_spelling (h i hi)]
  split_ifs with hfit
  · rw [parse_eq_ok, raw_format h, List.map_map]
    exact ⟨raw_format h ▸ hfit, parseLines_map hread 1⟩
  · have hlines : (Lines.read (format code)).lines =
        (code.takeWhile fun i => (lineOf i).length < Lines.limit).map
          (Lines.dropReturn ∘ lineOf) := by
      rw [Lines.read, raw_format h, List.takeWhile_map, List.map_map]
      rfl
    rw [parse, hlines, parseLines_map fun i hi => hread i ((List.takeWhile_prefix _).subset hi)]
    exact if_pos ((overlong_read _).mpr hfit)

/-- **Code is read back from its text just if its operands are tokens and no line is too long.** -/
theorem parse_format_iff (code : List Instr) : parse (format code) = .ok code ↔
    (∀ i ∈ code, ∀ w ∈ i.operands, IsToken w) ∧
      ∀ line ∈ Lines.raw (format code), line.length ≤ 65535 := by
  constructor
  · intro h
    exact ⟨isToken_of_parse h, fun line hl => Nat.le_of_lt_succ ((parse_eq_ok.mp h).1 line hl)⟩
  · rintro ⟨htokens, hlines⟩
    have hfit : ∀ line ∈ Lines.raw (format code), line.length < Lines.limit := fun line hl =>
      Nat.lt_succ_of_le (hlines line hl)
    rw [parse_format htokens, if_pos hfit]

/-- **Code that was read is read back from its text, unless a line became too long.**  That cannot
happen where every line that was read has room for the indentation. -/
theorem parse_format_of_parse {src : Bytes} {code : List Instr} (h : parse src = .ok code) :
    (parse (format code) =
      if ∀ line ∈ Lines.raw (format code), line.length < Lines.limit then .ok code
      else .error .overlong) ∧
    ((∀ line ∈ Lines.raw src, line.length + 4 < Lines.limit) → parse (format code) = .ok code) := by
  have htokens := isToken_of_parse h
  refine ⟨parse_format htokens, fun hroom => ?_⟩
  have hfit : ∀ line ∈ Lines.raw (format code), line.length < Lines.limit := by
    rw [raw_format htokens]
    intro l hl
    obtain ⟨i, hi, rfl⟩ := List.mem_map.mp hl
    obtain ⟨line, hline, he⟩ := exists_line_of_parse h i hi
    calc (lineOf i).length ≤ (Bytes.join [0x20] (words line)).length + 4 := length_lineOf_le he
      _ ≤ line.length + 4 := Nat.add_le_add_right (length_join_words line) 4
      _ < Lines.limit := hroom line hline
  rw [parse_format htokens, if_pos hfit]

/-- A label and a padded size are respelled, and both are read back. -/
theorem parse_format_of_parse_sized :
    parse (Bytes.ascii "label a # b\n reserve x +07") =
      .ok [.label (Bytes.ascii "a"), .reserve (Bytes.ascii "x") 7] ∧
    parse (format [.label (Bytes.ascii "a"), .reserve (Bytes.ascii "x") 7]) =
      .ok [.label (Bytes.ascii "a"), .reserve (Bytes.ascii "x") 7] := by
  have h : parse (Bytes.ascii "label a # b\n reserve x +07") =
      .ok [.label (Bytes.ascii "a"), .reserve (Bytes.ascii "x") 7] := by
    cbv
  exact ⟨h, (parse_format_of_parse h).2 (by decide)⟩

/-- A line of the greatest length is read, and is too long once it is indented. -/
theorem parse_format_overlong :
    parse (Bytes.line (Bytes.ascii "push " ++ List.replicate 65530 0x78)) =
      .ok [.push (List.replicate 65530 0x78)] ∧
    parse (format [.push (List.replicate 65530 0x78)]) = .error .overlong := by
  have htoken : IsToken (List.replicate 65530 0x78) := by
    refine isToken_of_ascii (List.ne_nil_of_length_eq_add_one List.length_replicate) fun c hc => ?_
    rw [List.eq_of_mem_replicate hc]
    decide
  have hlength : (List.replicate 65530 (0x78 : UInt8)).length = 65530 := List.length_replicate
  generalize List.replicate 65530 (0x78 : UInt8) = x at htoken hlength ⊢
  have hoperands : ∀ i ∈ [Instr.push x], ∀ w ∈ i.operands, IsToken w :=
    List.forall_mem_singleton.mpr (List.forall_mem_singleton.mpr htoken)
  have htokens := isToken_of_mem_spelling (List.forall_mem_singleton.mp hoperands)
  constructor
  · have hline : Bytes.ascii "push " ++ x = indented 0 (spelling (.push x)) := rfl
    rw [hline]
    refine parse_line (newline_not_mem_indented htokens 0) ?_ ?_
    · rw [← hline, List.length_append, hlength]
      decide
    · rw [words_indented htokens, Instr.ofFields_spelling (List.forall_mem_singleton.mp hoperands)]
  · have hlong : (lineOf (.push x)).length = 65539 := by
      show (Bytes.ascii "    push " ++ x).length = _
      rw [List.length_append, hlength]
      rfl
    rw [parse_format hoperands, if_neg]
    intro hfit
    rw [raw_format hoperands, List.map_singleton, List.forall_mem_singleton, hlong] at hfit
    exact absurd hfit (by decide)

end Source

end StackTape
