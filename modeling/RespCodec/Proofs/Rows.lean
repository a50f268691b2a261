/-
# How many lines a value takes

What a value is shown as is decided by its shape where lines are concerned, and by nothing that
is in its texts:

| data | lines |
| --- | --- |
| none, a number, a text, no elements | one |
| elements | those of the elements |
| elements of a map | for each entry, those of its key and of its value, less one |

`Value.rows` counts them, and `Value.outline` is the shape: kinds, and where the elements are.
Both hold of values built by hand as well, where data need not fit the kind and a last key may
have no value.

So a text that a peer sends is shown inside the line where it belongs.  It can neither break
the line nor hold a control character, and neither can an attributes unit, as none is shown.
-/

import Mathlib.Algebra.GroupWithZero.Nat
import RespCodec.Proofs.Layout

namespace RespCodec

/-! ## Lines -/

mutual

/-- How many lines a value takes. -/
def Value.rows : Value → Nat
  | ⟨kind, data, _⟩ => Data.rows kind data
termination_by structural value => value

def Data.rows (kind : Kind) : Data Value → Nat
  | .elements items =>
    if items.isEmpty then 1 else if kind.isMap then entryRows items else itemRows items
  | .str _ | .int _ | .null => 1
termination_by structural data => data

/-- How many lines elements take. -/
def itemRows : List Value → Nat
  | [] => 0
  | item :: items => item.rows + itemRows items
termination_by structural items => items

/-- How many lines entries take.  The first line of a value is the last one of its key. -/
def entryRows : List Value → Nat
  | [] => 0
  | [k] => k.rows
  | k :: v :: rest => (k.rows + v.rows - 1) + entryRows rest
termination_by structural items => items

end

mutual

/-- The value with nothing left of it but its kind and its elements, at every level. -/
def Value.outline : Value → Value
  | ⟨kind, data, _⟩ => ⟨kind, outlineData data, none⟩
termination_by structural value => value

/-- Data of which only elements are left. -/
def outlineData : Data Value → Data Value
  | .elements items => .elements (outlineItems items)
  | .str _ | .int _ | .null => .null
termination_by structural data => data

/-- Elements of which only their elements are left. -/
def outlineItems : List Value → List Value
  | [] => []
  | item :: items => item.outline :: outlineItems items
termination_by structural items => items

end

/-- Elements are outlined one by one. -/
@[simp] theorem outlineItems_eq_map (items : List Value) :
    outlineItems items = items.map Value.outline := by
  induction items with
  | nil => rfl
  | cons item items ih => rw [outlineItems, ih, List.map_cons]

/-- Elements take as many rows as their outlines, if each of them does. -/
theorem itemRows_outline {items : List Value} (h : ∀ item ∈ items, item.outline.rows = item.rows) :
    itemRows (items.map Value.outline) = itemRows items := by
  induction items with
  | nil => rfl
  | cons item items ih =>
    obtain ⟨hitem, hitems⟩ := List.forall_mem_cons.1 h
    rw [List.map_cons, itemRows, itemRows, hitem, ih hitems]

/-- So do entries: the last row of a key is the first of its value, in the outline as well. -/
theorem entryRows_outline {items : List Value}
    (h : ∀ item ∈ items, item.outline.rows = item.rows) :
    entryRows (items.map Value.outline) = entryRows items := by
  fun_induction chunked items with
  | case1 => rfl
  | case2 k => exact h k List.mem_cons_self
  | case3 k v rest ih =>
    obtain ⟨hk, hrest⟩ := List.forall_mem_cons.1 h
    obtain ⟨hv, hrest⟩ := List.forall_mem_cons.1 hrest
    rw [List.map_cons, List.map_cons, entryRows, entryRows, hk, hv, ih hrest]

/-- The lines of a value are those of its shape. -/
theorem Value.rows_outline (value : Value) : value.outline.rows = value.rows := by
  induction value using Value.induction_items with
  | step kind data attributes ih =>
    cases data with
    | str | int | null => rfl
    | elements items =>
      have hitems : ∀ item ∈ items, item.outline.rows = item.rows := ih
      simp only [outline, outlineData, outlineItems_eq_map, rows, Data.rows, List.isEmpty_map,
        itemRows_outline hitems, entryRows_outline hitems]

/-! ## Without attributes -/

/-- Elements are shown without their attributes, if each of them is. -/
theorem displayItems_bare {items : List Value}
    (h : ∀ item ∈ items, ∀ indent, item.bare.displayAt indent = item.displayAt indent)
    (indent i : Nat) :
    displayItems indent i (items.map Value.bare) = displayItems indent i items := by
  induction items generalizing i with
  | nil => rfl
  | cons item items ih =>
    obtain ⟨hitem, hitems⟩ := List.forall_mem_cons.1 h
    rw [List.map_cons, displayItems, displayItems, hitem, ih hitems]

/-- So are entries, a last key without a value among them. -/
theorem displayEntries_bare {items : List Value}
    (h : ∀ item ∈ items, ∀ indent, item.bare.displayAt indent = item.displayAt indent)
    (indent i : Nat) :
    displayEntries indent i (items.map Value.bare) = displayEntries indent i items := by
  fun_induction chunked items generalizing i with
  | case1 => rfl
  | case2 k =>
    rw [List.map_singleton, displayEntries, displayEntries, List.forall_mem_singleton.1 h]
  | case3 k v rest ih =>
    obtain ⟨hk, hrest⟩ := List.forall_mem_cons.1 h
    obtain ⟨hv, hrest⟩ := List.forall_mem_cons.1 hrest
    rw [List.map_cons, List.map_cons, displayEntries, displayEntries, hk, hv, ih hrest]

/-- Attributes units are not shown, on whatever level they are. -/
theorem Value.displayAt_bare (value : Value) (indent : Nat) :
    value.bare.displayAt indent = value.displayAt indent := by
  induction value using Value.induction_items generalizing indent with
  | step kind data attributes ih =>
    cases data with
    | str | int | null => rfl
    | elements items =>
      have hitems : ∀ item ∈ items, ∀ indent, item.bare.displayAt indent = item.displayAt indent :=
        ih
      simp only [bare, bareData, bareItems_eq_map, displayAt, Data.displayAt, List.isEmpty_map,
        displayItems_bare hitems, displayEntries_bare hitems]

/-! ## Characters and line feeds -/

/-- Nothing but printable characters and line feeds. -/
def Printed (text : List Char) : Prop := ∀ c ∈ text, IsShown c ∨ c = '\n'

/-- A line is printed, as all its characters are shown. -/
theorem OneLine.printed {text : List Char} (h : OneLine text) : Printed text :=
  fun c hc => .inl (h c hc)

/-- There is no line feed in it to count. -/
theorem OneLine.count_eq_zero {text : List Char} (h : OneLine text) : text.count '\n' = 0 :=
  List.count_eq_zero.2 h.not_mem

/-- Printed texts make a printed text. -/
theorem Printed.append {text more : List Char} (h : Printed text) (hmore : Printed more) :
    Printed (text ++ more) := by
  intro c hc
  rcases List.mem_append.1 hc with hc | hc
  · exact h c hc
  · exact hmore c hc

/-- A line break is a line feed and spaces. -/
theorem printed_lineBreak (indent : Nat) : Printed (lineBreak indent) := by
  refine List.forall_mem_cons.2 ⟨.inr rfl, fun c hc => .inl ?_⟩
  rw [List.eq_of_mem_replicate hc]
  decide

/-- The indent adds no line feed to the one that there is. -/
theorem count_lineBreak (indent : Nat) : (lineBreak indent).count '\n' = 1 := by
  simp [lineBreak, List.count_replicate]

/-- Indenting adds spaces alone. -/
theorem Printed.indented {text : List Char} (h : Printed text) (indent : Nat) :
    Printed (indented indent text) := by
  intro c hc
  obtain ⟨d, hd, hc⟩ := List.mem_flatMap.1 hc
  split at hc
  · exact printed_lineBreak indent c hc
  · rw [List.mem_singleton.1 hc]
    exact h d hd

/-- Indentation adds no line. -/
theorem count_indented (indent : Nat) (text : List Char) :
    (indented indent text).count '\n' = text.count '\n' := by
  induction text with
  | nil => rfl
  | cons c text ih =>
    have hcons : indented indent (c :: text) = indented indent [c] ++ indented indent text :=
      indented_append indent [c] text
    rw [hcons, List.count_append, ih, List.count_cons, Nat.add_comm]
    by_cases hc : c = '\n'
    · simp [RespCodec.indented, hc, count_lineBreak]
    · simp [RespCodec.indented, hc]

/-- Joining adds line feeds alone. -/
theorem Printed.joinLines {lines : List (List Char)} (h : ∀ line ∈ lines, Printed line) :
    Printed (joinLines lines) := by
  have hbreak : Printed ['\n'] := printed_lineBreak 0
  induction lines with
  | nil => exact List.forall_mem_nil _
  | cons line lines ih =>
    obtain ⟨hline, hlines⟩ := List.forall_mem_cons.1 h
    cases lines with
    | nil => simpa [RespCodec.joinLines] using hline
    | cons next lines =>
      rw [RespCodec.joinLines, List.intercalate_cons_cons]
      exact (hline.append hbreak).append (ih hlines)

/-- Between two lines there is one break. -/
theorem count_joinLines {lines : List (List Char)} (h : lines ≠ []) :
    (joinLines lines).count '\n' + 1 = (lines.map fun line => line.count '\n' + 1).sum := by
  induction lines with
  | nil => exact absurd rfl h
  | cons line lines ih =>
    cases lines with
    | nil => simp [RespCodec.joinLines]
    | cons next lines =>
      have hrest := ih (List.cons_ne_nil next lines)
      rw [RespCodec.joinLines] at hrest ⊢
      rw [List.intercalate_cons_cons, List.map_cons, List.sum_cons, ← hrest]
      simp
      omega

/-! ## Lines of elements and entries -/

/-- A value is shown by nothing but printable characters, on as many lines as its rows. -/
structure Value.Tidy (value : Value) : Prop where
  printed : Printed value.display
  count : value.display.count '\n' + 1 = value.rows

/-- A value on one line is tidy if it takes one row. -/
theorem OneLine.tidy {value : Value} (h : OneLine value.display) (hrows : value.rows = 1) :
    value.Tidy :=
  ⟨h.printed, by rw [h.count_eq_zero, hrows]⟩

/-- A label in front of a text, and spaces below it, leave it printed. -/
theorem Printed.labelled {label text : List Char} (hlabel : OneLine label) (h : Printed text) :
    Printed (labelled label text) :=
  hlabel.printed.append (h.indented label.length)

/-- They add no line feed either, so the rows are those of the text. -/
theorem count_labelled {label : List Char} (h : OneLine label) (text : List Char) :
    (labelled label text).count '\n' = text.count '\n' := by
  rw [RespCodec.labelled, List.count_append, h.count_eq_zero, count_indented, Nat.zero_add]

/-- Each element is printed behind its label. -/
theorem printed_itemLines {items : List Value} (h : ∀ item ∈ items, item.Tidy) (i : Nat) :
    ∀ line ∈ (items.zipIdx i).map itemLine, Printed line := by
  induction items generalizing i with
  | nil => exact List.forall_mem_nil _
  | cons item items ih =>
    obtain ⟨hitem, hitems⟩ := List.forall_mem_cons.1 h
    rw [List.zipIdx_cons, List.map_cons]
    exact List.forall_mem_cons.2 ⟨hitem.printed.labelled (oneLine_itemLabel i), ih hitems (i + 1)⟩

/-- Together the elements take their rows: a label takes none of its own. -/
theorem sum_itemLines {items : List Value} (h : ∀ item ∈ items, item.Tidy) (i : Nat) :
    (((items.zipIdx i).map itemLine).map fun line => line.count '\n' + 1).sum = itemRows items := by
  induction items generalizing i with
  | nil => rfl
  | cons item items ih =>
    obtain ⟨hitem, hitems⟩ := List.forall_mem_cons.1 h
    have hline : (itemLine (item, i)).count '\n' + 1 = item.rows := by
      rw [itemLine, count_labelled (oneLine_itemLabel i), hitem.count]
    rw [List.zipIdx_cons, List.map_cons, List.map_cons, List.sum_cons, ih hitems, hline, itemRows]

/-- A key without a value is shown like an element. -/
theorem entryLine_none (k : Value) (i : Nat) :
    entryLine ((k, none), i) = labelled (entryLabel i) k.display :=
  List.append_nil _

/-- A value stands behind its key and an arrow, indented below the label. -/
theorem entryLine_some (k v : Value) (i : Nat) :
    entryLine ((k, some v), i) = labelled (entryLabel i) k.display ++
      (" => ".toList ++ indented (entryLabel i).length v.display) := rfl

/-- Each entry is printed behind its label, a last key without a value as well. -/
theorem printed_entryLines {items : List Value} (h : ∀ item ∈ items, item.Tidy) (i : Nat) :
    ∀ line ∈ ((chunked items).zipIdx i).map entryLine, Printed line := by
  have harrow : OneLine " => ".toList := by decide
  fun_induction chunked items generalizing i with
  | case1 => exact List.forall_mem_nil _
  | case2 k =>
    have hk := (List.forall_mem_singleton.1 h).printed.labelled (oneLine_entryLabel i)
    exact List.forall_mem_singleton.2 (entryLine_none k i ▸ hk)
  | case3 k v rest ih =>
    obtain ⟨hk, hrest⟩ := List.forall_mem_cons.1 h
    obtain ⟨hv, hrest⟩ := List.forall_mem_cons.1 hrest
    rw [List.zipIdx_cons, List.map_cons]
    refine List.forall_mem_cons.2 ⟨?_, ih hrest (i + 1)⟩
    rw [entryLine_some]
    exact (hk.printed.labelled (oneLine_entryLabel i)).append
      (harrow.printed.append (hv.printed.indented _))

/-- An entry with a value takes the rows of both, less the one that they have in common. -/
theorem sum_entryLines {items : List Value} (h : ∀ item ∈ items, item.Tidy) (i : Nat) :
    ((((chunked items).zipIdx i).map entryLine).map fun line => line.count '\n' + 1).sum =
      entryRows items := by
  have harrow : OneLine " => ".toList := by decide
  fun_induction chunked items generalizing i with
  | case1 => rfl
  | case2 k =>
    have hk := (List.forall_mem_singleton.1 h).count
    rw [List.zipIdx_singleton, List.map_singleton, List.map_singleton, List.sum_singleton,
      entryLine_none, count_labelled (oneLine_entryLabel i), hk, entryRows]
  | case3 k v rest ih =>
    obtain ⟨hk, hrest⟩ := List.forall_mem_cons.1 h
    obtain ⟨hv, hrest⟩ := List.forall_mem_cons.1 hrest
    -- the first line of the value continues the last one of the key
    have hline : (entryLine ((k, some v), i)).count '\n' + 1 = k.rows + v.rows - 1 := by
      rw [entryLine_some, List.count_append, List.count_append, harrow.count_eq_zero,
        count_labelled (oneLine_entryLabel i), count_indented, ← hk.count, ← hv.count]
      omega
    rw [List.zipIdx_cons, List.map_cons, List.map_cons, List.sum_cons, ih hrest, hline, entryRows]

/-- Elements make at least one entry, if only a key. -/
theorem chunked_ne_nil {ν : Type} {items : List ν} (h : items ≠ []) : chunked items ≠ [] := by
  fun_cases chunked items with
  | case1 => exact absurd rfl h
  | case2 k => exact List.cons_ne_nil _ _
  | case3 k v rest => exact List.cons_ne_nil _ _

namespace Value

/-- A null is on one line. -/
theorem tidy_null (kind : Kind) (attributes : Option Value) : Tidy ⟨kind, .null, attributes⟩ :=
  OneLine.tidy (oneLine_displayNull kind) rfl

/-- An integer is on one line, whatever kind holds it. -/
theorem tidy_int (kind : Kind) (n : Int64) (attributes : Option Value) :
    Tidy ⟨kind, .int n, attributes⟩ :=
  OneLine.tidy (oneLine_displayInt kind n) rfl

/-- Text is on one line, as it is escaped. -/
theorem tidy_str (kind : Kind) (bytes : Bytes) (attributes : Option Value) :
    Tidy ⟨kind, .str bytes, attributes⟩ :=
  OneLine.tidy (oneLine_displayText kind bytes) rfl

/-- An empty aggregate is on one line. -/
theorem tidy_nil (kind : Kind) (attributes : Option Value) :
    Tidy ⟨kind, .elements [], attributes⟩ :=
  OneLine.tidy (oneLine_displayEmpty kind) rfl

/-- An aggregate is its elements or its entries joined by line feeds, so it takes the rows that they
take together. -/
theorem tidy_elements {kind : Kind} {items : List Value} (attributes : Option Value)
    (hne : items ≠ []) (h : ∀ item ∈ items, item.Tidy) :
    Tidy ⟨kind, .elements items, attributes⟩ := by
  have hempty : items.isEmpty = false := List.isEmpty_eq_false_iff.2 hne
  -- labels are those of items or of entries; the rest of the argument is the same
  cases hkind : kind.isMap with
  | false =>
    have hrows : rows ⟨kind, .elements items, attributes⟩ = itemRows items := by
      simp [rows, Data.rows, hempty, hkind]
    have hlines : items.zipIdx.map itemLine ≠ [] := by simpa using hne
    have hdisplay := display_items attributes hne hkind
    refine ⟨?_, ?_⟩
    · rw [hdisplay]
      exact Printed.joinLines (printed_itemLines h 0)
    · rw [hdisplay, hrows, count_joinLines hlines, sum_itemLines h 0]
  | true =>
    have hrows : rows ⟨kind, .elements items, attributes⟩ = entryRows items := by
      simp [rows, Data.rows, hempty, hkind]
    have hlines : (chunked items).zipIdx.map entryLine ≠ [] := by simpa using chunked_ne_nil hne
    have hdisplay := display_entries attributes hne hkind
    refine ⟨?_, ?_⟩
    · rw [hdisplay]
      exact Printed.joinLines (printed_entryLines h 0)
    · rw [hdisplay, hrows, count_joinLines hlines, sum_entryLines h 0]

/-- Every value is tidy.  By induction over nested values, one case for each form of data, and an
empty aggregate apart. -/
theorem tidy (value : Value) : value.Tidy := by
  induction value using induction_items with
  | step kind data attributes ih =>
    cases data with
    | null => exact tidy_null kind attributes
    | int n => exact tidy_int kind n attributes
    | str bytes => exact tidy_str kind bytes attributes
    | elements items =>
      have hitems : ∀ item ∈ items, item.Tidy := ih
      cases items with
      | nil => exact tidy_nil kind attributes
      | cons item items => exact tidy_elements attributes (List.cons_ne_nil item items) hitems

/-- Texts cannot forge lines: **every value is shown by printable characters and line feeds, on
as many lines as its rows,** and its shape alone, without texts and numbers, takes as many.
Attributes units, its own or those of anything inside, change nothing of what is shown. -/
theorem display_rows (value : Value) :
    (∀ c ∈ value.display, IsShown c ∨ c = '\n') ∧
      value.bare.display = value.display ∧
      0 < value.rows ∧
      value.display.count '\n' = value.rows - 1 ∧
      value.outline.display.count '\n' = value.display.count '\n' := by
  have hcount := value.tidy.count
  have houtline := value.outline.tidy.count
  rw [value.rows_outline] at houtline
  exact ⟨value.tidy.printed, value.displayAt_bare 0, by omega, by omega, by omega⟩

end Value
end RespCodec
