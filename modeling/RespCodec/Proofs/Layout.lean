/-
# Lines inside lines

An aggregate is shown line by line, and an element that takes several lines has them indented
by the width of its label.  So a value is shown in the same way wherever it stands: at a
column, it is what it is by itself, with that many spaces in front of each line but the first
(`Value.displayAt_eq`).  From that it follows what an aggregate looks like, said by the
displays of its elements alone:

| elements | shown as |
| --- | --- |
| of a map | for each entry, `1# ` and so on, the key, ` => ` and the value |
| of any other kind | for each element, `1) ` and so on, the element |

This needs that a line feed is never part of anything but a break between lines.  Labels,
words and numbers have none, and no text has one once it is escaped: it is on one line
(`OneLine`), like all that is shown of a value without elements.
-/

import RespCodec.Proofs.CanonicalDigits
import RespCodec.Proofs.Parts
import RespCodec.Value.Display

namespace RespCodec

/-! ## Texts on one line -/

/-- The printable characters of ASCII, the space among them. -/
def IsShown (c : Char) : Prop := 0x20 ≤ c.toNat ∧ c.toNat ≤ 0x7e

instance : DecidablePred IsShown :=
  fun c => inferInstanceAs (Decidable (0x20 ≤ c.toNat ∧ c.toNat ≤ 0x7e))

/-- Every character of the text is printable, so none of them is a line feed. -/
def OneLine (text : List Char) : Prop := ∀ c ∈ text, IsShown c

instance (text : List Char) : Decidable (OneLine text) := List.decidableBAll IsShown text

/-- Texts on one line make one line. -/
theorem OneLine.append {text more : List Char} (h : OneLine text) (hmore : OneLine more) :
    OneLine (text ++ more) := by
  intro c hc
  rcases List.mem_append.1 hc with hc | hc
  · exact h c hc
  · exact hmore c hc

/-- A line has no line feed in it. -/
theorem OneLine.not_mem {text : List Char} (h : OneLine text) : '\n' ∉ text :=
  fun hmem => absurd (h _ hmem) (by decide)

/-- Digits are shown, those of base sixteen included. -/
theorem isShown_digitChar {d : Nat} (h : d < 16) : IsShown d.digitChar := by
  have hall : ∀ d < 16, IsShown d.digitChar := by decide
  exact hall d h

/-- A number is on one line, however many digits it has. -/
theorem oneLine_digits (n : Nat) : OneLine (Decimal.digits n) := by
  induction n using Nat.strongRecOn with
  | ind n ih =>
    rcases Nat.lt_or_ge n 10 with hlt | hge
    · rw [Decimal.digits_of_lt hlt]
      exact List.forall_mem_singleton.2 (isShown_digitChar (by omega))
    · rw [Decimal.digits_of_ge hge]
      exact (ih (n / 10) (by omega)).append
        (List.forall_mem_singleton.2 (isShown_digitChar (by omega)))

/-- A sign is shown as well. -/
theorem oneLine_signed (n : Int) : OneLine (Decimal.signed n) := by
  have hminus : OneLine ['-'] := by decide
  unfold Decimal.signed
  split
  · exact hminus.append (oneLine_digits _)
  · exact oneLine_digits _

/-- A byte is shown by printable characters, whatever byte it is. -/
theorem oneLine_escapeByte (b : UInt8) : OneLine (escapeByte b) := by
  have hlt := b.toNat_lt
  -- there are few of them, so it is checked for each
  have hshown : ∀ n < 0x7f, 0x20 ≤ n → IsShown (Char.ofNat n) := by decide
  simp only [escapeByte]
  split
  · decide
  split
  · decide
  split
  · decide
  split
  · rename_i h
    rcases h with rfl | rfl | rfl <;> decide
  split
  · rename_i h
    have hlower : 0x20 ≤ b.toNat := UInt8.le_iff_toNat_le.1 h.1
    have hupper : b.toNat ≤ 0x7e := UInt8.le_iff_toNat_le.1 h.2
    exact List.forall_mem_singleton.2 (hshown b.toNat (by omega) hlower)
  · have hmark : OneLine [backslash, 'x'] := by decide
    refine hmark.append (List.forall_mem_cons.2 ⟨?_, List.forall_mem_singleton.2 ?_⟩)
    · exact isShown_digitChar (by omega)
    · exact isShown_digitChar (Nat.mod_lt _ (by decide))

/-- Whatever the bytes are, escaped they are on one line: line feeds are spelled out. -/
theorem oneLine_escape (bytes : Bytes) : OneLine (escape bytes) := by
  intro c hc
  obtain ⟨b, -, hc⟩ := List.mem_flatMap.1 hc
  exact oneLine_escapeByte b c hc

/-- A null is shown on one line, whatever kind holds it. -/
theorem oneLine_displayNull (kind : Kind) : OneLine (displayNull kind) := by
  unfold displayNull
  split <;> decide

/-- So is an integer, a truth value among them. -/
theorem oneLine_displayInt (kind : Kind) (n : Int64) : OneLine (displayInt kind n) := by
  have hword : OneLine "(integer) ".toList := by decide
  unfold displayInt
  split
  · split <;> decide
  · exact hword.append (oneLine_signed _)

/-- So is text, as it is escaped. -/
theorem oneLine_displayText (kind : Kind) (bytes : Bytes) : OneLine (displayText kind bytes) := by
  have hquote : OneLine ['"'] := by decide
  have hword {word : List Char} (h : OneLine word) : OneLine (word ++ escape bytes) :=
    h.append (oneLine_escape bytes)
  unfold displayText
  split
  · exact hword (by decide)
  · exact hword (by decide)
  · exact hword (by decide)
  · exact hword (by decide)
  · exact oneLine_escape bytes
  · exact (hword hquote).append hquote

/-- A label is a number and what stands behind it. -/
theorem oneLine_itemLabel (i : Nat) : OneLine (itemLabel i) :=
  (oneLine_digits _).append (by decide)

/-- The label of an entry is on one line too. -/
theorem oneLine_entryLabel (i : Nat) : OneLine (entryLabel i) :=
  (oneLine_digits _).append (by decide)

/-- The names by which aggregates are shown are words. -/
theorem oneLine_aggregateName (kind : Kind) : OneLine kind.aggregateName := by
  cases kind <;> decide

/-- An aggregate without elements is on one line, like data that are no aggregate. -/
theorem oneLine_displayEmpty (kind : Kind) :
    OneLine ("(empty ".toList ++ kind.aggregateName ++ [')']) := by
  have hopen : OneLine "(empty ".toList := by decide
  have hclose : OneLine [')'] := by decide
  exact (hopen.append (oneLine_aggregateName kind)).append hclose

/-! ## Indentation -/

/-- The text with every line but the first indented. -/
def indented (indent : Nat) (text : List Char) : List Char :=
  text.flatMap fun c => if c = '\n' then lineBreak indent else [c]

/-- Text is indented line by line, so its parts can be indented by themselves. -/
theorem indented_append (indent : Nat) (text more : List Char) :
    indented indent (text ++ more) = indented indent text ++ indented indent more :=
  List.flatMap_append

/-- There is nothing to indent on one line. -/
theorem indented_of_oneLine (indent : Nat) {text : List Char} (h : OneLine text) :
    indented indent text = text := by
  induction text with
  | nil => rfl
  | cons c text ih =>
    have hbreak : c ≠ '\n' := fun hbreak => h.not_mem (hbreak ▸ List.mem_cons_self)
    rw [indented, List.flatMap_cons, if_neg hbreak, ← indented,
      ih fun c hc => h c (List.mem_cons_of_mem _ hc)]
    rfl

/-- A line break that is indented is one with a larger indent, so indents add up. -/
theorem indented_lineBreak (indent more : Nat) :
    indented more (lineBreak indent) = lineBreak (more + indent) := by
  have hblank : OneLine (List.replicate indent ' ') := by
    intro c hc
    rw [List.eq_of_mem_replicate hc]
    decide
  have hbreak : indented more ['\n'] = lineBreak more := List.append_nil _
  rw [lineBreak, ← List.singleton_append, indented_append, indented_of_oneLine more hblank, hbreak,
    lineBreak, lineBreak, ← List.replicate_append_replicate, List.cons_append]

/-- Indenting twice is indenting by both widths. -/
theorem indented_indented (indent more : Nat) (text : List Char) :
    indented more (indented indent text) = indented (more + indent) text := by
  have hchar (c : Char) : indented more (if c = '\n' then lineBreak indent else [c]) =
      if c = '\n' then lineBreak (more + indent) else [c] := by
    split
    · exact indented_lineBreak indent more
    · rename_i hc
      simp [indented, hc]
  rw [indented, indented, List.flatMap_assoc]
  exact congrArg (text.flatMap ·) (funext hchar)

/-! ## Values at a column -/

/-- What holds of a value whenever it holds of its elements holds of all values.  It is the
recursor of the nested type without a case for attributes units, which are not shown. -/
theorem Value.induction_items {P : Value → Prop}
    (step : ∀ kind data attributes, (∀ item ∈ data.items, P item) → P ⟨kind, data, attributes⟩)
    (value : Value) : P value := by
  refine Value.rec
    (motive_1 := P)
    (motive_2 := fun data => ∀ item ∈ data.items, P item)
    (motive_3 := fun _ => True)
    (motive_4 := fun items => ∀ item ∈ items, P item)
    (fun kind data attributes hitems _ => step kind data attributes hitems)
    ?str ?int ?null (fun _ hitems => hitems) trivial (fun _ _ => trivial) ?nil ?cons value
  case str | int | null => intros; contradiction
  case nil => exact List.forall_mem_nil P
  case cons => exact fun _ _ hitem hitems => List.forall_mem_cons.2 ⟨hitem, hitems⟩

/-- A value is shown at a column as it is shown by itself, but indented. -/
def Value.Indents (value : Value) : Prop :=
  ∀ indent, value.displayAt indent = indented indent value.display

/-- In front of the first element there is no break, and in front of the others the indent is the
only difference. -/
theorem labelBreak_eq (indent i : Nat) : labelBreak indent i = indented indent (labelBreak 0 i) := by
  unfold labelBreak
  split
  · rfl
  · rw [indented_lineBreak, Nat.add_zero]

/-- Elements at an indent are the elements at none, indented, if that is so of each of them.  By
induction on the elements, from any label on. -/
theorem displayItems_eq {items : List Value} (h : ∀ item ∈ items, item.Indents) (indent i : Nat) :
    displayItems indent i items = indented indent (displayItems 0 i items) := by
  induction items generalizing i with
  | nil => rfl
  | cons item items ih =>
    obtain ⟨hitem, hitems⟩ := List.forall_mem_cons.1 h
    rw [displayItems, displayItems, hitem, hitem, ih hitems, labelBreak_eq indent]
    simp only [indented_append, indented_indented, indented_of_oneLine _ (oneLine_itemLabel i),
      Nat.zero_add]

/-- Elements two by two.  A last one that stands alone has none beside it. -/
def chunked {ν : Type} : List ν → List (ν × Option ν)
  | [] => []
  | [k] => [(k, none)]
  | k :: v :: rest => (k, some v) :: chunked rest

/-- The same for entries.  A value is shown behind its key, so its indent is that of the key and
more. -/
theorem displayEntries_eq {items : List Value} (h : ∀ item ∈ items, item.Indents)
    (indent i : Nat) :
    displayEntries indent i items = indented indent (displayEntries 0 i items) := by
  have harrow : OneLine " => ".toList := by decide
  fun_induction chunked items generalizing i with
  | case1 => rfl
  | case2 k =>
    have hk := List.forall_mem_singleton.1 h
    rw [displayEntries, displayEntries, hk, hk, labelBreak_eq indent]
    simp only [indented_append, indented_indented, indented_of_oneLine _ (oneLine_entryLabel i),
      Nat.zero_add]
  | case3 k v rest ih =>
    obtain ⟨hk, hrest⟩ := List.forall_mem_cons.1 h
    obtain ⟨hv, hrest⟩ := List.forall_mem_cons.1 hrest
    rw [displayEntries, displayEntries, hk, hk, hv, hv, ih hrest, labelBreak_eq indent]
    simp only [indented_append, indented_indented, indented_of_oneLine _ (oneLine_entryLabel i),
      indented_of_oneLine _ harrow, Nat.zero_add]

/-- An indent moves every line of a value but the first, and changes nothing else.  By induction
over nested values, as elements are shown at indents of their own. -/
theorem Value.indents (value : Value) : value.Indents := by
  induction value using Value.induction_items with
  | step kind data attributes ih =>
    intro indent
    show Data.displayAt indent kind data = indented indent (Data.displayAt 0 kind data)
    cases data with
    | null => exact (indented_of_oneLine indent (oneLine_displayNull kind)).symm
    | int n => exact (indented_of_oneLine indent (oneLine_displayInt kind n)).symm
    | str bytes => exact (indented_of_oneLine indent (oneLine_displayText kind bytes)).symm
    | elements items =>
      simp only [Data.displayAt]
      split
      · exact (indented_of_oneLine indent (oneLine_displayEmpty kind)).symm
      split
      · exact displayEntries_eq ih indent 0
      · exact displayItems_eq ih indent 0

/-! ## Aggregates -/

/-- Lines one below the other. -/
def joinLines (lines : List (List Char)) : List Char := List.intercalate ['\n'] lines

/-- A text behind a label, its further lines as far to the right as the first. -/
def labelled (label text : List Char) : List Char := label ++ indented label.length text

/-- The line of an element, by its display. -/
def itemLine (item : Value × Nat) : List Char := labelled (itemLabel item.2) item.1.display

/-- The line of an entry, by the displays of its key and its value. -/
def entryLine (entry : (Value × Option Value) × Nat) : List Char :=
  labelled (entryLabel entry.2) entry.1.1.display ++
    match entry.1.2 with
    | some value => " => ".toList ++ indented (entryLabel entry.2).length value.display
    | none => []

/-- Lines from number `i` on, each behind the break in front of it. -/
def linesFrom (i : Nat) : List (List Char) → List Char
  | [] => []
  | line :: lines => labelBreak 0 i ++ line ++ linesFrom (i + 1) lines

/-- Lines that begin with a label are a break in front of it, and the lines joined. -/
theorem linesFrom_eq (i : Nat) {lines : List (List Char)} (h : lines ≠ []) :
    linesFrom i lines = labelBreak 0 i ++ joinLines lines := by
  induction lines generalizing i with
  | nil => exact absurd rfl h
  | cons line lines ih =>
    cases lines with
    | nil => simp [linesFrom, joinLines]
    | cons next lines =>
      rw [linesFrom, ih (i + 1) (List.cons_ne_nil next lines), joinLines, joinLines,
        List.intercalate_cons_cons]
      simp [labelBreak, lineBreak]

/-- Where nothing stands in front there is no break. -/
theorem linesFrom_zero (lines : List (List Char)) : linesFrom 0 lines = joinLines lines := by
  cases lines with
  | nil => rfl
  | cons line lines => exact linesFrom_eq 0 (List.cons_ne_nil line lines)

/-- Elements are shown one below the other, each behind its number. -/
theorem displayItems_lines (i : Nat) (items : List Value) :
    displayItems 0 i items = linesFrom i ((items.zipIdx i).map itemLine) := by
  induction items generalizing i with
  | nil => rfl
  | cons item items ih =>
    rw [displayItems, ih, item.indents, Nat.zero_add, List.zipIdx_cons, List.map_cons, linesFrom,
      itemLine, labelled]
    simp only [List.append_assoc]

/-- Entries are shown one below the other, each as its key and, if it has one, its value. -/
theorem displayEntries_lines (i : Nat) (items : List Value) :
    displayEntries 0 i items = linesFrom i (((chunked items).zipIdx i).map entryLine) := by
  fun_induction chunked items generalizing i with
  | case1 => rfl
  | case2 k =>
    rw [displayEntries, k.indents, Nat.zero_add]
    simp [linesFrom, entryLine, labelled]
  | case3 k v rest ih =>
    rw [displayEntries, ih, k.indents, v.indents, Nat.zero_add]
    simp [linesFrom, entryLine, labelled]

namespace Value

/-- Elements that stand by themselves are lines. -/
theorem display_items {kind : Kind} {items : List Value} (attributes : Option Value)
    (hne : items ≠ []) (hkind : kind.isMap = false) :
    display ⟨kind, .elements items, attributes⟩ = joinLines (items.zipIdx.map itemLine) := by
  have hempty : items.isEmpty = false := List.isEmpty_eq_false_iff.2 hne
  have hdisplay : display ⟨kind, .elements items, attributes⟩ = displayItems 0 0 items := by
    show Data.displayAt 0 kind (.elements items) = _
    simp [Data.displayAt, hempty, hkind]
  rw [hdisplay, displayItems_lines, linesFrom_zero]

/-- Entries are lines. -/
theorem display_entries {kind : Kind} {items : List Value} (attributes : Option Value)
    (hne : items ≠ []) (hkind : kind.isMap = true) :
    display ⟨kind, .elements items, attributes⟩ =
      joinLines ((chunked items).zipIdx.map entryLine) := by
  have hempty : items.isEmpty = false := List.isEmpty_eq_false_iff.2 hne
  have hdisplay : display ⟨kind, .elements items, attributes⟩ = displayEntries 0 0 items := by
    show Data.displayAt 0 kind (.elements items) = _
    simp [Data.displayAt, hempty, hkind]
  rw [hdisplay, displayEntries_lines, linesFrom_zero]

/-- Layout: **at a column a value is shown as it is by itself, with its further lines moved
there.**  So an aggregate is shown as lines, one below the other.  Each is an element behind its
label, or a key and its value behind one label, and further lines of these stand as far to the
right as their first ones.  The labels are the numbers from one on. -/
theorem displayAt_eq :
    (∀ (value : Value) (indent : Nat), value.displayAt indent = indented indent value.display) ∧
      (∀ (kind : Kind) (items : List Value) (attributes : Option Value), items ≠ [] →
        kind.isMap = false →
        display ⟨kind, .elements items, attributes⟩ = joinLines (items.zipIdx.map itemLine)) ∧
      (∀ (kind : Kind) (items : List Value) (attributes : Option Value), items ≠ [] →
        kind.isMap = true →
        display ⟨kind, .elements items, attributes⟩ =
          joinLines ((chunked items).zipIdx.map entryLine)) ∧
      ∀ i, ∃ number, Grammar.Canonical (ascii number) (i + 1) ∧
        itemLabel i = number ++ ") ".toList ∧ entryLabel i = number ++ "# ".toList := by
  refine ⟨indents, fun _ _ attributes => display_items attributes,
    fun _ _ attributes => display_entries attributes, fun i => ?_⟩
  exact ⟨Decimal.digits (i + 1), canonical_digits (i + 1), rfl, rfl⟩

/-- A list for a value, and a key without one. -/
def unevenEntries : List Value := [simpleString (ascii ['k']), array [null, null], null]

/-- Nine elements, and one of which the label is wider. -/
def wideLabels : List Value := List.replicate 9 null ++ [ofData .map (.elements unevenEntries)]

/-- What is behind the tenth label stands one column further to the right. -/
theorem display_wideLabels :
    (unevenEntries ≠ [] ∧ Kind.map.isMap = true ∧
      display ⟨.map, .elements unevenEntries, none⟩ =
        "1# k => 1) (nil)\n   2) (nil)\n2# (nil)".toList ∧
      displayAt 4 ⟨.map, .elements unevenEntries, none⟩ =
        "1# k => 1) (nil)\n       2) (nil)\n    2# (nil)".toList) ∧
      wideLabels ≠ [] ∧ Kind.set.isMap = false ∧
      display ⟨.set, .elements wideLabels, none⟩ = joinLines
        (["1) (nil)", "2) (nil)", "3) (nil)", "4) (nil)", "5) (nil)", "6) (nil)", "7) (nil)",
          "8) (nil)", "9) (nil)", "10) 1# k => 1) (nil)", "       2) (nil)",
          "    2# (nil)"].map String.toList) := by
  obtain ⟨hcolumn, hitems, hentries, -⟩ := displayAt_eq
  have hmap := hentries .map unevenEntries none (List.cons_ne_nil _ _) rfl
  refine ⟨⟨List.cons_ne_nil _ _, rfl, ?_, ?_⟩, List.cons_ne_nil _ _, rfl, ?_⟩
  · rw [hmap]
    rfl
  · rw [hcolumn, hmap]
    rfl
  · rw [hitems .set wideLabels none (List.cons_ne_nil _ _) rfl]
    rfl

end Value
end RespCodec
