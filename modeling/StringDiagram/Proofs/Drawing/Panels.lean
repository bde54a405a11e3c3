import StringDiagram.Proofs.Category.Arrivals
import StringDiagram.Proofs.Drawing.Cells

/-! # The nodes of a drawing

The ports of a box are told twice, to the check of a wire and to the table that is drawn. A node is `Faithful`
if the cells of its table are the ports that the check finds, and all nodes of a drawing are: `faithful_all`. The
sides of the boundary are the other way around in both. -/
namespace StringDiagram
open Diagram Text Dot

namespace Dot
variable {s u : List Char} {out : List (List Char)}

/-- A text without brackets, backslashes and line breaks can be read back. -/
theorem Literal.of_forall (h : ∀ c ∈ s, c ≠ '<' ∧ c ≠ '\\' ∧ c ≠ '\n') : Literal s where
  not_markup := by
    cases s with
    | nil => rfl
    | cons c cs =>
      unfold isMarkup
      split
      · next heq => exact absurd (List.cons.inj heq).1 (h c List.mem_cons_self).1
      · rfl
  unbroken _ hl := (h _ (List.mem_of_getLast? hl)).2.2 rfl
  steady := steady_of_forall fun c hc => (h c hc).2.1

theorem written?_figures (i : Int) : written? (figures i) = some (.text (figures i)) := by
  refine written?_eq_text_iff.mpr (.of_forall fun c hc => ?_)
  have hf := isFigure_of_mem hc
  refine ⟨?_, ?_, ?_⟩ <;> rintro rfl <;> cases hf

theorem written?_portText (side : Side) (j : Int) : written? (portText side j) = some (.text (portText side j)) := by
  refine written?_eq_text_iff.mpr (.of_forall fun c hc => ?_)
  have hport := of_mem_portText hc
  refine ⟨?_, ?_, ?_⟩ <;> rintro rfl <;> cases hport

theorem written?_table (h : scan stepTag .outside u = (out, .outside)) :
    written? ('<' :: u ++ ['>']) = some (.markup u) := by
  have hopen : step .between '<' = ([], .markup [] 0) := rfl
  have hmarkup : scan step (.markup [] 0) u = ([], .markup u 0) := scan_markup h nofun nofun
  have hclose : scan step (.markup u 0) ['>', ' '] = ([.datum (.markup u)], .between) := rfl
  have hscan := scan_append hmarkup hclose
  rw [written?_eq_some, quote_markup, List.append_assoc, List.cons_append, scan_cons, hopen]
  exact Prod.ext (congrArg Prod.fst hscan) (congrArg Prod.snd hscan)

def tableEntry (name table : List Char) : Entry := .stated (.node ⟨.text name, []⟩)
  [(.text "label".toList, .markup table), (.text "shape".toList, .text "plain".toList)]

def Entry.declares (name : List Char) : Entry → Bool
  | .stated (.node p) _ => decide (p.node = .text name)
  | _ => false

theorem declares_tableEntry {name name' table : List Char} :
    (tableEntry name' table).declares name = decide (name' = name) := by
  simp [tableEntry, Entry.declares]

theorem entries?_nodeStatement {v : Nat} {table : String}
    (h : scan stepTag .outside table.toList = (out, .outside)) :
    (Store.nodeStatement v table).entries? = some [tableEntry (figures v) table.toList] := by
  have hlabel : written? "label".toList = some (.text "label".toList) := by decide
  have hshape : written? "shape".toList = some (.text "shape".toList) := by decide
  have hplain : written? "plain".toList = some (.text "plain".toList) := by decide
  have hname : written? (toString v).toList = some (.text (figures v)) := by
    rw [Nat.toString_eq_repr, toList_repr, written?_figures]
  have htable : written? ("<" ++ table ++ ">").toList = some (.markup table.toList) := by
    rw [← written?_table h]
    simp
  simp only [Store.nodeStatement, Statement.entries?, Attributes.entries?, List.mapM_cons, List.mapM_nil, hname,
    htable, hlabel, hshape, hplain]
  rfl

end Dot

section Faults
variable {α β : Type} {e : Fault}

theorem bind_ne_error {x : Except Fault α} {f : α → Except Fault β} (hx : x ≠ .error e) (hf : ∀ a, f a ≠ .error e) :
    (x >>= f) ≠ .error e := by
  cases x with
  | error e' => exact fun h => hx (congrArg Except.error (Except.error.inj h))
  | ok a => exact hf a

variable (c : Value) (m : Nat)

theorem Value.index_ne_outOfRange (v : Value) : v.index ≠ .error (.portOutOfRange c m) := by
  unfold Value.index
  split <;> exact nofun

theorem Value.atPosition_ne_outOfRange (vs : List Value) (i : Int) :
    Value.atPosition vs i ≠ .error (.portOutOfRange c m) := by
  unfold Value.atPosition
  dsimp only
  split <;> exact nofun

theorem Diagram.box_ne_outOfRange (d : Diagram) (v : Value) : d.box v ≠ .error (.portOutOfRange c m) := by
  refine bind_ne_error ?_ fun _ => nofun
  unfold Table.resolve
  repeat' split
  all_goals exact nofun

/-- What else goes wrong with an item is not that its port is out of range. -/
theorem Store.item_ne_outOfRange (s : Store) (types port : Value) :
    s.item types port ≠ .error (.portOutOfRange c m) := by
  have hposition : ∀ vs, (do Value.atPosition vs (← port.index)) ≠ .error (.portOutOfRange c m) := fun vs =>
    bind_ne_error (Value.index_ne_outOfRange c m port) (Value.atPosition_ne_outOfRange c m vs)
  cases types with
  | text t => exact hposition _
  | list vs | tuple vs | row vs => exact hposition _
  | ref r =>
    rw [Store.item]
    split
    · exact Diagram.box_ne_outOfRange c m _ _
    · simp
  | _ => simp [Store.item]

end Faults

structure Panel where
  id : Nat
  table : String
  ports : Side → Nat

namespace Panel

def statement (n : Panel) : Statement := Store.nodeStatement n.id n.table

def entry (n : Panel) : Entry := tableEntry (figures n.id) n.table.toList

/-- The side of the boundary with the inputs of the diagram, which are outputs there. -/
def ofInputs (p : Palette) (d : Diagram) : Panel where
  id := inputId
  table := p.boundaryTable "inputs" 0 d.inputs.length
  ports | .input => 0 | .output => d.inputs.length

def ofOutputs (p : Palette) (d : Diagram) : Panel where
  id := outputId
  table := p.boundaryTable "outputs" d.outputs.length 0
  ports | .input => d.outputs.length | .output => 0

def ofLook (p : Palette) (l : Look) : Panel where
  id := l.id
  table := p.boxTable (Markup.escape l.name) l.inputs l.outputs (if l.nested then p.nestedBox else p.box) p.background 1
  ports | .input => l.inputs | .output => l.outputs

def all (p : Palette) (d : Diagram) (looks : List Look) : List Panel :=
  ofInputs p d :: ofOutputs p d :: looks.map (ofLook p)

/-- The cells of the table are the ports, and the ports are those that the check of a wire finds. -/
structure Faithful (s : Store) (d : Diagram) (n : Panel) : Prop where
  scans : scan stepTag .outside n.table.toList =
    (Palette.portNames .input (n.ports .input) ++ Palette.portNames .output (n.ports .output), .outside)
  types : ∀ t : Ending, t.box = n.id → ∃ types, s.portTypes d t.connector.toValue = .ok types ∧
    types.length = .ok (n.ports t.side)

variable {s : Store} {p : Palette} {d : Diagram} {n : Panel} {t : Ending}

theorem Faithful.mem_cells (h : n.Faithful s d) (side : Side) (j : Int) :
    portText side j ∈ cells n.table.toList ↔ 0 ≤ j ∧ j < n.ports side := by
  rw [Dot.cells, h.scans, List.mem_append, Palette.mem_portNames, Palette.mem_portNames]
  cases side <;> simp

theorem Faithful.nodup_cells (h : n.Faithful s d) : (cells n.table.toList).Nodup := by
  rw [Dot.cells, h.scans]
  exact Palette.nodup_portNames _ _

/-- A port is in range if there is a cell for it. -/
theorem Faithful.mem_cells_iff (h : n.Faithful s d) (ht : t.box = n.id) :
    portText t.side t.port ∈ cells n.table.toList ↔
      ∀ m, s.portType d t.connector.toValue ≠ .error (.portOutOfRange t.connector.toValue m) := by
  obtain ⟨types, htypes, hlen⟩ := h.types t ht
  rw [h.mem_cells]
  have hport : s.portType d t.connector.toValue =
      if 0 ≤ t.port ∧ t.port < n.ports t.side then s.item types (.int t.port)
      else .error (.portOutOfRange t.connector.toValue (n.ports t.side)) := by
    rw [Store.portType, htypes]
    simp only [Store.portOf, Ending.connector, Connector.toValue, Value.index, bind, Except.bind, hlen,
      Value.number?_int]
  rw [hport]
  split
  · next hrange => exact ⟨fun _ m => s.item_ne_outOfRange _ m types _, fun _ => hrange⟩
  · next hrange => exact ⟨fun hin => absurd hin hrange, fun hout => absurd rfl (hout _)⟩

theorem faithful_ofInputs (s : Store) (hp : p.Plain) (d : Diagram) : (ofInputs p d).Faithful s d where
  scans := Palette.scan_boxTable hp (fun c hc => ((by decide : IsPlain "inputs".toList) c hc).2) hp.background
    hp.boundary
  types t ht := by
    obtain ⟨box, side, port⟩ := t
    obtain rfl : box = 0 := ht
    refine ⟨_, rfl, ?_⟩
    cases side <;> rfl

theorem faithful_ofOutputs (s : Store) (hp : p.Plain) (d : Diagram) : (ofOutputs p d).Faithful s d where
  scans := Palette.scan_boxTable hp (fun c hc => ((by decide : IsPlain "outputs".toList) c hc).2) hp.background
    hp.boundary
  types t ht := by
    obtain ⟨box, side, port⟩ := t
    obtain rfl : box = 1 := ht
    refine ⟨_, rfl, ?_⟩
    cases side <;> rfl

theorem faithful_ofLook {l : Look} {e : Nat × Value} (hp : p.Plain) (hd : d.Consistent) (he : e ∈ d.boxes)
    (hl : s.Shows e l) : (ofLook p l).Faithful s d where
  scans := by
    refine Palette.scan_boxTable hp (fun c hc => ?_) ?_ hp.background
    · rw [Markup.escape, String.toList_ofList] at hc
      exact ne_bracket_of_encode hc
    · cases l.nested
      · exact hp.box
      · exact hp.nestedBox
  types t ht := by
    have hbox : d.boxes.get? e.1 = some e.2 := Table.get?_of_mem hd.boxes_nodup he
    have h2 : 2 ≤ e.1 := hd.two_le (Table.mem_keys_of_get? hbox)
    have hid : t.connector.box.boxId? = some e.1 := by
      rw [Ending.connector, ht.trans (congrArg Nat.cast hl.id.symm)]
      exact Value.boxId?_ofNat e.1
    have hon := Connector.isOn_iff.mpr hid
    have h0 := Connector.isOn_eq_false hon (w := inputId) (by rw [inputId]; omega)
    have h1 := Connector.isOn_eq_false hon (w := outputId) (by rw [outputId]; omega)
    have hside : t.connector.side = t.side := by cases t with | mk box side port => cases side <;> rfl
    have hports : s.portTypes d t.connector.toValue = s.ports t.side e.2 := by
      rw [Store.portTypes_eq, if_neg (by simp [h0]), if_neg (by simp [h1]), Store.box_eq_ok.mpr ⟨e.1, hid, hbox⟩, hside]
      rfl
    rw [hports]
    cases t.side
    · exact hl.inputs
    · exact hl.outputs

theorem faithful_all {looks : List Look} (hp : p.Plain) (hd : d.Consistent)
    (hl : List.Forall₂ s.Shows d.boxes looks) : ∀ n ∈ all p d looks, n.Faithful s d := by
  refine List.forall_mem_cons.mpr ⟨faithful_ofInputs s hp d, List.forall_mem_cons.mpr ⟨faithful_ofOutputs s hp d, ?_⟩⟩
  intro n hn
  obtain ⟨l, hmem, rfl⟩ := List.mem_map.mp hn
  obtain ⟨e, he, hshows⟩ := mem_of_forall₂ hl hmem
  exact faithful_ofLook hp hd he hshows

theorem ids_all {looks : List Look} (p : Palette) (hl : List.Forall₂ s.Shows d.boxes looks) :
    (all p d looks).map Panel.id = d.live := by
  have hkeys : d.boxes.keys = looks.map Look.id := List.forall₂_eq_eq_eq ▸
    List.forall₂_map_left_iff.mpr (List.forall₂_map_right_iff.mpr (hl.imp fun _ _ h => h.id))
  rw [live, hkeys]
  simp [all, ofInputs, ofOutputs, ofLook, Function.comp_def]

end Panel

end StringDiagram
