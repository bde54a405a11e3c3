import StringDiagram.Proofs.Drawing.Codes
import StringDiagram.Proofs.Linear.Ports

/-! # Drawings tell diagrams apart

The text of a document decodes from its start to its end: the boundary, then a box or a wire on each line.
An escaped name cannot end the cell it stands in, and the number that a line starts with tells a box from a
wire by the character after it. So a drawing without types, in a palette known by name, gives back all but the
types (`Store.draw_inj`): the ports of the diagram, its boxes with their names and ports, and its wires. -/
namespace StringDiagram
open Diagram Text Dot

theorem Text.toList_repr (n : Nat) : n.repr.toList = figures n := by
  rw [figures_ofNat, Nat.toList_repr]

namespace Palette
variable {p : Palette} {side : Side} {m n : Nat} {k x y : List Char}

section Tables

theorem portCell_decodes (p : Palette) (side : Side) : Decodes fun i => (p.portCell side i).toList := by
  intro i j x y h
  have hmark : "\" BGCOLOR=\"".toList = '"' :: " BGCOLOR=\"".toList := by simp
  unfold portCell at h
  simp only [String.toList_append, List.append_assoc, List.append_cancel_left_eq, hmark, List.cons_append,
    Nat.toString_eq_repr, toList_repr] at h
  obtain ⟨hij, -, hrest⟩ := figures_cut rfl rfl h
  obtain rfl : i = j := Int.ofNat_inj.mp hij
  simpa only [List.append_cancel_left_eq, true_and] using hrest

theorem portCell_ne_end (p : Palette) (side : Side) (i : Nat) (x y : List Char) :
    (p.portCell side i).toList ++ x ≠ "</TR></TABLE></TD></TR>".toList ++ y := by
  unfold portCell
  simp only [String.toList_append, List.append_assoc]
  exact append_ne (c := 'T') (d := '/') 1 (by simp) (by simp) (by decide)

def rowStart : List Char :=
  "<TR><TD><TABLE BORDER=\"0\" CELLBORDER=\"1\" CELLSPACING=\"3\" CELLPADDING=\"2\" COLOR=\"".toList

theorem rowStart_ne_label (x y : List Char) :
    rowStart ++ x ≠ "<TR><TD><FONT POINT-SIZE=\"11.0\" FACE=\"".toList ++ y := by
  unfold rowStart
  exact append_ne (c := 'T') (d := 'F') 9 (by simp) (by simp) (by decide)

theorem rowStart_ne_end (x y : List Char) : rowStart ++ x ≠ "</TABLE>".toList ++ y := by
  unfold rowStart
  exact append_ne (c := 'T') (d := '/') 1 (by simp) (by simp) (by decide)

theorem toList_portsRow (hn : n ≠ 0) : (p.portsRow side n).toList = rowStart ++ (p.portBorder.toList ++
    ("\"><TR>".toList ++ ((List.range n).flatMap (fun i => (p.portCell side i).toList) ++
      "</TR></TABLE></TD></TR>".toList))) := by
  simp only [portsRow, if_neg hn, String.toList_append, String.toList_join, List.flatMap_map, List.append_assoc]
  rfl

/-- A row of ports tells their number. What follows it must not look like a row, since a row without ports is
not written at all. -/
theorem portsRow_cut (hk : ∀ x y, rowStart ++ x ≠ k ++ y)
    (h : (p.portsRow side m).toList ++ (k ++ x) = (p.portsRow side n).toList ++ (k ++ y)) : m = n ∧ x = y := by
  by_cases hm : m = 0 <;> by_cases hn : n = 0
  · simpa [portsRow, hm, hn] using h
  · simp only [toList_portsRow hn, List.append_assoc] at h
    simp only [hm, portsRow] at h
    exact absurd h.symm (hk _ _)
  · simp only [toList_portsRow hm, List.append_assoc] at h
    simp only [hn, portsRow] at h
    exact absurd h (hk _ _)
  · simp only [toList_portsRow hn, toList_portsRow hm, List.append_assoc, List.append_cancel_left_eq] at h
    obtain ⟨hrange, hrest⟩ := (portCell_decodes p side).flatMap (fun i z => portCell_ne_end p side i z _)
      (fun i z => portCell_ne_end p side i z _) h
    have hlength := congrArg List.length hrange
    rw [List.length_range, List.length_range] at hlength
    exact ⟨hlength, by simpa only [List.append_cancel_left_eq] using hrest⟩

/-- A table is read in its order: the colour up to the quotation mark, the inputs, the name up to the bracket
that no escaped name has in it, the outputs. -/
theorem boxTable_cut {name name' fill fill' colour : String} {m' n' border : Nat} (hfill : '"' ∉ fill.toList)
    (hfill' : '"' ∉ fill'.toList)
    (h : (p.boxTable (Markup.escape name) m n fill colour border).toList ++ x =
      (p.boxTable (Markup.escape name') m' n' fill' colour border).toList ++ y) :
    name = name' ∧ m = m' ∧ n = n' ∧ fill = fill' ∧ x = y := by
  have hmark : "\" COLOR=\"".toList = '"' :: " COLOR=\"".toList := by simp
  have hangle : "</B></FONT></TD></TR>".toList = '<' :: "/B></FONT></TD></TR>".toList := by simp
  unfold boxTable at h
  simp only [String.toList_append, List.append_assoc, List.append_cancel_left_eq, hmark, List.cons_append] at h
  obtain ⟨hf, -, htable⟩ := cut (p := (· != '"')) (fun c hc => bne_iff_ne.mpr fun hq => hfill (hq ▸ hc))
    (fun c hc => bne_iff_ne.mpr fun hq => hfill' (hq ▸ hc)) rfl rfl h
  simp only [List.append_cancel_left_eq] at htable
  obtain ⟨hm, hlabel⟩ := portsRow_cut rowStart_ne_label htable
  simp only [List.append_cancel_left_eq, List.cons.injEq, true_and, hangle, Markup.escape, String.toList_ofList,
    List.cons_append] at hlabel
  obtain ⟨hname, hrow⟩ := Markup.encode_cut hlabel
  simp only [List.append_cancel_left_eq] at hrow
  obtain ⟨hn, hxy⟩ := portsRow_cut rowStart_ne_end hrow
  exact ⟨String.toList_inj.mp hname, hm, hn, String.toList_inj.mp hf, hxy⟩

end Tables
end Palette

section Statements
variable {p : Palette} {side : Side} {x y : List Char}

theorem toList_quoteText (s : String) : (quoteText s).toList = quote s.toList := String.toList_ofList

theorem quoteText_of_identifier {s : String} (h : isIdentifier s.toList = true) : quoteText s = s := by
  rw [← String.toList_inj, toList_quoteText, quote_of_identifier h]

theorem quoteText_number (n : Nat) : (quoteText n.repr).toList = figures n := by
  rw [toList_quoteText, toList_repr, quote_figures]

theorem quoteText_markup (s : String) : quoteText ("<" ++ s ++ ">") = "<" ++ s ++ ">" := by
  rw [← String.toList_inj, toList_quoteText]
  simpa using quote_markup s.toList

theorem toList_nodeStatement (v : Nat) (table : String) : (Store.nodeStatement v table).text.toList =
    '\t' :: (figures v ++ ' ' :: ("[label=<".toList ++ (table.toList ++ "> shape=plain]\n".toList))) := by
  have hlabel : quoteText "label" = "label" := quoteText_of_identifier (by decide +kernel)
  have hshape : quoteText "shape" = "shape" := quoteText_of_identifier (by decide +kernel)
  have hplain : quoteText "plain" = "plain" := quoteText_of_identifier (by decide +kernel)
  simp [Store.nodeStatement, Statement.text, Attributes.text, quoteText_number, quoteText_markup, hlabel, hshape,
    hplain]

structure Ending where
  box : Int
  side : Side
  port : Int

def Ending.connector (t : Ending) : Connector := ⟨.int t.box, .side t.side, .int t.port⟩

def Ending.text (t : Ending) : List Char := figures t.box ++ ':' :: '"' :: portText t.side t.port ++ ['"']

theorem portText_cut {side side' : Side} {i j : Int}
    (h : portText side i ++ '"' :: x = portText side' j ++ '"' :: y) : side = side' ∧ i = j ∧ x = y := by
  by_cases hside : side = side'
  · subst hside
    rw [portText, portText, List.append_assoc, List.append_assoc, List.append_cancel_left_eq] at h
    obtain ⟨hij, -, hxy⟩ := figures_cut rfl rfl h
    exact ⟨rfl, hij, hxy⟩
  · -- The names of the two sides differ in their first letter.
    cases side <;> cases side' <;> simp_all [portText, Side.portPrefix]

theorem Ending.text_decodes : Decodes Ending.text := by
  rintro ⟨i, side, j⟩ ⟨i', side', j'⟩ x y h
  simp only [Ending.text, List.append_assoc, List.cons_append, List.nil_append] at h
  obtain ⟨rfl, -, hport⟩ := figures_cut rfl rfl h
  obtain ⟨rfl, rfl, hxy⟩ := portText_cut (List.cons.inj hport).2
  exact ⟨rfl, hxy⟩

def lineText (attributes : List Char) (c : Ending × Ending) : List Char :=
  '\t' :: (c.1.text ++ (" -> ".toList ++ (c.2.text ++ (" [".toList ++ (attributes ++ "]\n".toList)))))

theorem lineText_decodes (attributes : List Char) : Decodes (lineText attributes) := by
  rintro ⟨t, u⟩ ⟨t', u'⟩ x y h
  simp only [lineText, List.cons_append, List.append_assoc, List.cons.injEq, true_and] at h
  obtain ⟨rfl, hrest⟩ := Ending.text_decodes t t' _ _ h
  rw [List.append_cancel_left_eq] at hrest
  obtain ⟨rfl, hend⟩ := Ending.text_decodes u u' _ _ hrest
  simp only [List.append_cancel_left_eq] at hend
  exact ⟨rfl, hend⟩

structure Look where
  id : Nat
  name : String
  inputs : Nat
  outputs : Nat
  nested : Bool

def Look.statement (p : Palette) (l : Look) : Statement :=
  Store.nodeStatement l.id (p.boxTable (Markup.escape l.name) l.inputs l.outputs
    (if l.nested then p.nestedBox else p.box) p.background 1)

/-- Colours end where their quotation marks do, and tell nested diagrams from other boxes. -/
structure Palette.Clear (p : Palette) : Prop where
  background : '"' ∉ p.background.toList
  box : '"' ∉ p.box.toList
  nestedBox : '"' ∉ p.nestedBox.toList
  ne : p.nestedBox ≠ p.box

theorem Palette.clear_of_named (hp : p ∈ Palette.named.map Prod.snd) : p.Clear := by
  simp only [named, List.map_cons, List.map_nil, List.mem_cons, List.not_mem_nil, or_false] at hp
  rcases hp with rfl | rfl | rfl <;> constructor <;> simp [standard, notebook, zx]

theorem nodeStatement_cut {name name' fill fill' colour : String} {v v' m n m' n' border : Nat}
    (hfill : '"' ∉ fill.toList) (hfill' : '"' ∉ fill'.toList)
    (h : (Store.nodeStatement v (p.boxTable (Markup.escape name) m n fill colour border)).text.toList ++ x =
      (Store.nodeStatement v' (p.boxTable (Markup.escape name') m' n' fill' colour border)).text.toList ++ y) :
    v = v' ∧ name = name' ∧ m = m' ∧ n = n' ∧ fill = fill' ∧ x = y := by
  simp only [toList_nodeStatement, List.cons_append, List.append_assoc, List.cons.injEq, true_and] at h
  obtain ⟨hv, -, hrest⟩ := figures_cut rfl rfl h
  rw [List.append_cancel_left_eq] at hrest
  obtain ⟨hname, hm, hn, hf, hxy⟩ := Palette.boxTable_cut hfill hfill' hrest
  exact ⟨Int.ofNat_inj.mp hv, hname, hm, hn, hf, List.append_cancel_left hxy⟩

theorem Look.statement_decodes (hp : p.Clear) : Decodes fun l => (Look.statement p l).text.toList := by
  rintro ⟨v, name, m, n, nested⟩ ⟨v', name', m', n', nested'⟩ x y h
  have hfill : ∀ b : Bool, '"' ∉ (if b then p.nestedBox else p.box).toList := by
    rintro (_ | _)
    exacts [hp.box, hp.nestedBox]
  obtain ⟨rfl, rfl, rfl, rfl, hf, rfl⟩ := nodeStatement_cut (hfill nested) (hfill nested') h
  have hne := hp.ne
  cases nested <;> cases nested' <;> simp_all [eq_comm]

end Statements

section Documents
variable {s s' : Store} {drawing : Drawing} {d d' : Diagram} {p : Palette}

/-- What goes through for all members of a list gives a result for each. -/
theorem exists_of_mapM {α β γ : Type} {f : α → Except Fault β} {R : α → γ → Prop} {g : γ → β} {as : List α}
    {bs : List β} (hf : ∀ a ∈ as, ∀ b, f a = .ok b → ∃ c, R a c ∧ b = g c) (h : as.mapM f = .ok bs) :
    ∃ cs, List.Forall₂ R as cs ∧ bs = cs.map g := by
  induction as generalizing bs with
  | nil =>
    cases h
    exact ⟨[], .nil, rfl⟩
  | cons a as ih =>
    rw [List.mapM_cons] at h
    obtain ⟨b, hb, h'⟩ := bind_eq_ok.mp h
    obtain ⟨bs', hbs, h''⟩ := bind_eq_ok.mp h'
    cases h''
    obtain ⟨c, hc, rfl⟩ := hf a List.mem_cons_self b hb
    obtain ⟨cs, hcs, rfl⟩ := ih (fun a' ha => hf a' (List.mem_cons_of_mem _ ha)) hbs
    exact ⟨c :: cs, .cons hc hcs, rfl⟩

structure Store.Shows (s : Store) (e : Nat × Value) (l : Look) : Prop where
  id : e.1 = l.id
  name : s.boxName e.2 = .ok (.text l.name)
  inputs : s.Arity .input e.2 l.inputs
  outputs : s.Arity .output e.2 l.outputs
  nested : (s.asDiagram? e.2).isSome = l.nested

theorem Store.Shows.of_boxStatement {e : Nat × Value} {st : Statement} (h : s.boxStatement p e.1 e.2 = .ok st) :
    ∃ l, s.Shows e l ∧ st = l.statement p := by
  unfold boxStatement at h
  obtain ⟨name, hname, h'⟩ := bind_eq_ok.mp h
  cases name with
  | text name =>
    obtain ⟨inputs, hinputs, h₁⟩ := bind_eq_ok.mp h'
    obtain ⟨outputs, houtputs, h₂⟩ := bind_eq_ok.mp h₁
    obtain ⟨m, hm, h₃⟩ := bind_eq_ok.mp h₂
    obtain ⟨n, hn, h₄⟩ := bind_eq_ok.mp h₃
    cases h₄
    have hshows : s.Shows e ⟨e.1, name, m, n, (s.asDiagram? e.2).isSome⟩ :=
      ⟨rfl, hname, ⟨inputs, hinputs, hm⟩, ⟨outputs, houtputs, hn⟩, rfl⟩
    exact ⟨_, hshows, rfl⟩
  | _ => cases h'

def Ending.name (t : Ending) : String := toString t.box ++ ":" ++ t.side.portPrefix ++ toString t.port

theorem Ending.toList_name (t : Ending) : t.name.toList = figures t.box ++ ':' :: portText t.side t.port := by
  simp [Ending.name, portText, figures]

theorem Ending.toList_edgeEndText (t : Ending) : (edgeEndText t.name).toList = t.text := by
  rw [edgeEndText, String.toList_ofList, Ending.toList_name, edgeEnd_port]
  rfl

def Ending.wire (c : Ending × Ending) : Wire := ⟨c.1.connector, c.2.connector⟩

def Wire.Plain (w : Wire) : Prop := ∃ c, w = Ending.wire c

def lineAttributes (p : Palette) : Attributes :=
  [("label", ""), ("arrowhead", "none"), ("arrowsize", "1.0"), ("color", p.wire), ("fontcolor", "black"),
    ("fontname", Palette.fontface), ("fontsize", "9"), ("penwidth", "1.5")]

def Ending.statement (p : Palette) (c : Ending × Ending) : Statement := .edge c.1.name c.2.name (lineAttributes p)

theorem Ending.toList_statement (c : Ending × Ending) :
    (Ending.statement p c).text.toList = lineText (lineAttributes p).text.toList c := by
  simp only [Ending.statement, Statement.text, String.toList_append, Ending.toList_edgeEndText, List.append_assoc]
  rfl

theorem Store.connectorName_tip (t : Ending) : s.connectorName t.connector = .ok t.name := rfl

theorem Store.wireStatement_plain {w : Wire} {st : Statement} (hw : w.Plain) (htypes : drawing.showTypes = false)
    (h : s.wireStatement drawing d w = .ok st) :
    ∃ c, w = Ending.wire c ∧ st = Ending.statement drawing.palette c := by
  obtain ⟨c, rfl⟩ := hw
  refine ⟨c, rfl, ?_⟩
  simp only [wireStatement, htypes, Ending.wire, connectorName_tip] at h
  cases h
  rfl

structure Sketch where
  inputs : Nat
  outputs : Nat
  looks : List Look
  lines : List (Ending × Ending)

def Sketch.header (drawing : Drawing) : Statement :=
  .graph [("bgcolor", drawing.palette.background), ("margin", "0"), ("nodesep", "0.15"),
    ("rankdir", drawing.rankdir), ("ranksep", "0.1")]

def Sketch.document (drawing : Drawing) (k : Sketch) : Document :=
  ⟨"wiring_diagram", header drawing ::
    Store.nodeStatement inputId (drawing.palette.boundaryTable "inputs" 0 k.inputs) ::
    Store.nodeStatement outputId (drawing.palette.boundaryTable "outputs" k.outputs 0) ::
    k.looks.map (Look.statement drawing.palette) ++ k.lines.map (Ending.statement drawing.palette)⟩

structure Store.Sketches (s : Store) (d : Diagram) (k : Sketch) : Prop where
  inputs : d.inputs.length = k.inputs
  outputs : d.outputs.length = k.outputs
  looks : List.Forall₂ s.Shows d.boxes k.looks
  lines : List.Forall₂ (fun w c => w = Ending.wire c) d.wires k.lines

theorem Store.Sketches.of_draw {doc : Document} (htypes : drawing.showTypes = false)
    (hw : ∀ w ∈ d.wires, w.Plain) (h : s.draw drawing d = .ok doc) :
    ∃ k, s.Sketches d k ∧ doc = k.document drawing := by
  obtain ⟨boxes, hboxes, h'⟩ := bind_eq_ok.mp h
  obtain ⟨wires, hwires, h''⟩ := bind_eq_ok.mp h'
  obtain ⟨looks, hlooks, rfl⟩ := exists_of_mapM (fun e _ _ he => Shows.of_boxStatement he) hboxes
  obtain ⟨lines, hlines, rfl⟩ :=
    exists_of_mapM (fun w hmem _ hst => wireStatement_plain (hw w hmem) htypes hst) hwires
  cases h''
  exact ⟨⟨_, _, looks, lines⟩, ⟨rfl, rfl, hlooks, hlines⟩, rfl⟩

theorem Sketch.toList_text (drawing : Drawing) (k : Sketch) :
    (k.document drawing).text.toList = "digraph ".toList ++ ((quoteText "wiring_diagram").toList ++
      (" \x7b\n".toList ++ ((header drawing).text.toList ++
      ((Store.nodeStatement inputId (drawing.palette.boundaryTable "inputs" 0 k.inputs)).text.toList ++
      ((Store.nodeStatement outputId (drawing.palette.boundaryTable "outputs" k.outputs 0)).text.toList ++
      (k.looks.flatMap (fun l => (Look.statement drawing.palette l).text.toList) ++
      (k.lines.flatMap (lineText (lineAttributes drawing.palette).text.toList) ++ "\x7d\n".toList))))))) := by
  simp [document, Document.text, String.toList_join, List.flatMap_map, Ending.toList_statement]

/-- After the boxes comes a wire or the end, and neither starts like a box. -/
theorem Look.statement_ne (attributes : List Char) (l : Look) (cs : List (Ending × Ending)) (z : List Char) :
    (Look.statement p l).text.toList ++ z ≠ cs.flatMap (lineText attributes) ++ "\x7d\n".toList := by
  intro h
  rw [Look.statement, toList_nodeStatement] at h
  cases cs with
  | nil => simp at h
  | cons c cs =>
    simp only [List.flatMap_cons, lineText, Ending.text, List.cons_append, List.append_assoc, List.cons.injEq,
      true_and] at h
    exact absurd (figures_cut rfl rfl h).2.1 (by decide)

theorem lineText_ne (attributes : List Char) (c : Ending × Ending) (z : List Char) :
    lineText attributes c ++ z ≠ "\x7d\n".toList := by
  intro h
  simp [lineText] at h

theorem boundaryStatement_cut {label : String} (hp : p.Clear) (hlabel : Markup.escape label = label)
    {v m n m' n' : Nat} {x y : List Char}
    (h : (Store.nodeStatement v (p.boundaryTable label m n)).text.toList ++ x =
      (Store.nodeStatement v (p.boundaryTable label m' n')).text.toList ++ y) : m = m' ∧ n = n' ∧ x = y := by
  unfold Palette.boundaryTable at h
  rw [← hlabel] at h
  obtain ⟨-, -, hm, hn, -, hxy⟩ := nodeStatement_cut hp.background hp.background h
  exact ⟨hm, hn, hxy⟩

/-- Two sketches with one text are the same. The text is read from its start to its end: the boundary, the
boxes and the wires, each up to where the next begins. -/
theorem Sketch.document_inj {k k' : Sketch} (hp : drawing.palette.Clear)
    (h : (k.document drawing).text = (k'.document drawing).text) : k = k' := by
  have htext := congrArg String.toList h
  simp only [Sketch.toList_text, List.append_cancel_left_eq] at htext
  obtain ⟨-, hinputs, hrest⟩ := boundaryStatement_cut hp (by rfl) htext
  obtain ⟨houtputs, -, hbody⟩ := boundaryStatement_cut hp (by rfl) hrest
  obtain ⟨hlooks, hwires⟩ := (Look.statement_decodes hp).flatMap (fun l => Look.statement_ne _ l _)
    (fun l => Look.statement_ne _ l _) hbody
  obtain ⟨hlines, -⟩ := (lineText_decodes _).flatMap (lineText_ne _) (lineText_ne _) hwires
  cases k
  cases k'
  simp_all

/-- Two boxes have one name, as many ports on each side, and both are nested diagrams or none is. -/
structure Store.Alike (s : Store) (b : Value) (s' : Store) (b' : Value) : Prop where
  name : ∃ name, s.boxName b = .ok name ∧ s'.boxName b' = .ok name
  arity : ∀ side, ∃ n, s.Arity side b n ∧ s'.Arity side b' n
  nested : (s.asDiagram? b).isSome = (s'.asDiagram? b').isSome

theorem Store.Shows.alike {e e' : Nat × Value} {l : Look} (h : s.Shows e l) (h' : s'.Shows e' l) :
    e.1 = e'.1 ∧ s.Alike e.2 s' e'.2 := by
  refine ⟨h.id.trans h'.id.symm, ⟨_, h.name, h'.name⟩, ?_, h.nested.trans h'.nested.symm⟩
  rintro (_ | _)
  exacts [⟨_, h.inputs, h'.inputs⟩, ⟨_, h.outputs, h'.outputs⟩]

theorem Store.Sketches.wires_eq {k : Sketch} (h : s.Sketches d k) : d.wires = k.lines.map Ending.wire := by
  have hlines := h.lines
  revert hlines
  generalize d.wires = ws, k.lines = cs
  intro hlines
  induction hlines with
  | nil => rfl
  | cons hw _ ih => rw [hw, ih, List.map_cons]

theorem alike_of_shows {es es' : Table Nat Value} {ls : List Look} (h : List.Forall₂ s.Shows es ls)
    (h' : List.Forall₂ s'.Shows es' ls) :
    es.keys = es'.keys ∧ List.Forall₂ (fun b b' => s.Alike b s' b') es.values es'.values := by
  induction h generalizing es' with
  | nil =>
    cases h'
    exact ⟨rfl, .nil⟩
  | cons he _ ih =>
    cases h' with
    | cons he' hes' =>
      obtain ⟨hkeys, hvalues⟩ := ih hes'
      obtain ⟨hkey, hvalue⟩ := he.alike he'
      exact ⟨congrArg₂ List.cons hkey hkeys, .cons hvalue hvalues⟩

/-- The text of a drawing without types tells the structure of the diagram. -/
theorem Store.draw_inj {doc doc' : Document} (hp : drawing.palette ∈ Palette.named.map Prod.snd)
    (htypes : drawing.showTypes = false) (hw : ∀ w ∈ d.wires, w.Plain) (hw' : ∀ w ∈ d'.wires, w.Plain)
    (h : s.draw drawing d = .ok doc) (h' : s'.draw drawing d' = .ok doc') (htext : doc.text = doc'.text) :
    d.inputs.length = d'.inputs.length ∧ d.outputs.length = d'.outputs.length ∧
      d.boxes.keys = d'.boxes.keys ∧
      List.Forall₂ (fun b b' => s.Alike b s' b') d.boxes.values d'.boxes.values ∧ d.wires = d'.wires := by
  obtain ⟨k, hk, rfl⟩ := Sketches.of_draw htypes hw h
  obtain ⟨k', hk', rfl⟩ := Sketches.of_draw htypes hw' h'
  obtain rfl := Sketch.document_inj (Palette.clear_of_named hp) htext
  obtain ⟨hkeys, hvalues⟩ := alike_of_shows hk.looks hk'.looks
  exact ⟨hk.inputs.trans hk'.inputs.symm, hk.outputs.trans hk'.outputs.symm, hkeys, hvalues,
    hk.wires_eq.trans hk'.wires_eq.symm⟩

def labelled (dom codom : Value) : Diagram where
  inputs := [dom]
  outputs := [codom]
  boxes := [(2, .atomic (.hom (.text "<B>f</B>") [dom] [codom]))]
  edges := [((0, 2), [.ofPorts 0 0 2 0]), ((2, 1), [.ofPorts 2 0 1 0])]
  succ := [(0, [(2, .ofNat 2)]), (1, []), (2, [(1, .ofNat 1)])]
  pred := [(0, []), (1, [(2, .ofNat 2)]), (2, [(0, .ofNat 0)])]
  next := 3

def labelledSketch : Sketch where
  inputs := 1
  outputs := 1
  looks := [⟨2, "<B>f</B>", 1, 1, false⟩]
  lines := [(⟨0, .output, 0⟩, ⟨2, .input, 0⟩), (⟨2, .output, 0⟩, ⟨1, .input, 0⟩)]

/-- Without types, a drawing does not tell one type from another. -/
theorem Store.draw_inj_labelled : let d := labelled (.object "A") (.object "B")
    let d' := labelled (.object "B") (.object "A")
    let drawing : Drawing := ⟨.zx, false, "LR"⟩
    d ≠ d' ∧ Store.empty.draw drawing d = .ok (labelledSketch.document drawing) ∧
      Store.empty.draw drawing d' = .ok (labelledSketch.document drawing) ∧
      List.Forall₂ (fun b b' => Store.empty.Alike b Store.empty b') d.boxes.values d'.boxes.values ∧
      d.wires = d'.wires := by
  intro d d' drawing
  have hw : ∀ w ∈ d.wires, w.Plain := fun w hmem => by
    obtain ⟨c, -, rfl⟩ := List.mem_map.mp (show w ∈ labelledSketch.lines.map Ending.wire from hmem)
    exact ⟨c, rfl⟩
  have hw' : ∀ w ∈ d'.wires, w.Plain := hw
  have hdraw : Store.empty.draw drawing d = .ok (labelledSketch.document drawing) := by rfl
  have hdraw' : Store.empty.draw drawing d' = .ok (labelledSketch.document drawing) := by rfl
  obtain ⟨-, -, -, hboxes, hwires⟩ := draw_inj (by decide) rfl hw hw' hdraw hdraw' rfl
  exact ⟨by decide, hdraw, hdraw', hboxes, hwires⟩

end Documents
end StringDiagram
