import StringDiagram.Proofs.Drawing.Panels
import StringDiagram.Proofs.Validity.Substituted

/-! # Edges end at cells

The text of a drawing is read: its nodes with their tables, and the places that its edges run between. The end
of a wire has a cell in the table of its node if and only if the port is in range (`ends_at_cells`). So the edges
of a valid diagram are attached at both ends. That holds where ports and boxes have numbers; another value can
be equal to a number and be written differently. -/
namespace StringDiagram
open Diagram Text Dot

section Options
variable {α β κ : Type}

theorem mapM_eq_some_iff {f : α → Option β} {as : List α} {bs : List β} :
    as.mapM f = some bs ↔ List.Forall₂ (fun a b => f a = some b) as bs := by
  induction as generalizing bs with
  | nil => cases bs <;> simp
  | cons a as ih =>
    simp only [List.mapM_cons, Option.bind_eq_bind, Option.bind_eq_some_iff, Option.pure_def,
      Option.some.injEq, List.forall₂_cons_left_iff, ih]
    constructor
    · rintro ⟨b, hb, bs', hbs, rfl⟩
      exact ⟨b, bs', hb, hbs, rfl⟩
    · rintro ⟨b, bs', hb, hbs, rfl⟩
      exact ⟨b, hb, bs', hbs, rfl⟩

theorem forall₂_trans {γ : Type} {R : α → β → Prop} {S : β → γ → Prop} {T : α → γ → Prop}
    (h : ∀ a b c, R a b → S b c → T a c) {as : List α} {bs : List β} {cs : List γ} (hr : List.Forall₂ R as bs)
    (hs : List.Forall₂ S bs cs) : List.Forall₂ T as cs := by
  induction hr generalizing cs with
  | nil =>
    cases hs
    exact .nil
  | cons hab _ ih =>
    cases hs with
    | cons hbc hs => exact .cons (h _ _ _ hab hbc) (ih hs)

theorem exists_mapM {f : α → Option β} {as : List α} (h : ∀ a ∈ as, ∃ b, f a = some b) :
    ∃ bs, as.mapM f = some bs := by
  induction as with
  | nil => exact ⟨[], rfl⟩
  | cons a as ih =>
    obtain ⟨⟨b, hb⟩, has⟩ := List.forall_mem_cons.mp h
    obtain ⟨bs, hbs⟩ := ih has
    exact ⟨b :: bs, by rw [List.mapM_cons, hb, hbs]; rfl⟩

/-- What has its key to itself is all that has that key. -/
theorem filter_eq_singleton [DecidableEq κ] {key : α → κ} {as : List α} (h : (as.map key).Nodup) {a : α}
    (ha : a ∈ as) : as.filter (fun b => decide (key b = key a)) = [a] := by
  induction as with
  | nil => cases ha
  | cons b bs ih =>
    rw [List.map_cons, List.nodup_cons] at h
    have hother : ∀ c ∈ bs, key c ≠ key b := fun c hc heq => h.1 (heq ▸ List.mem_map_of_mem hc)
    rcases List.mem_cons.mp ha with rfl | ha
    · rw [List.filter_cons_of_pos (by simp), List.filter_eq_nil_iff.mpr fun c hc => by simp [hother c hc]]
    · have hne : key b ≠ key a := fun heq => hother a ha heq.symm
      rw [List.filter_cons_of_neg (by simp [hne]), ih h.2 ha]

end Options

def Ending.place (t : Ending) : Place := ⟨.text (figures t.box), [.text (portText t.side t.port)]⟩

theorem Ending.place?_name (t : Ending) : place? t.name = some t.place := by
  simp only [place?, t.toList_name, splitColon_port, splitColon_portText, isEmpty_portText, written?_figures,
    written?_portText]
  rfl

def Line.Reads (l : Line) (e : Entry) : Prop := ∃ q r attributes, place? l.source = some q ∧
  place? l.target = some r ∧ e = .stated (.edge q r) attributes

/-- The edge runs from the place of the wire's source to that of its target, where these are numbered ports. -/
def Traverses (w : Wire) (e : Entry) : Prop := ∃ p q attributes, e = .stated (.edge p q) attributes ∧
  ∀ t : Ending, (w.source = t.connector → p = t.place) ∧ (w.target = t.connector → q = t.place)

def Tabled (es : List Entry) (name table : List Char) : Prop := ∃ attributes, es.filter (·.declares name) =
  [.stated (.node ⟨.text name, []⟩) ((.text "label".toList, .markup table) :: attributes)]

def Legible (s : String) : Prop := (written? s.toList).isSome = true

instance (s : String) : Decidable (Legible s) := inferInstanceAs (Decidable (_ = true))

def Drawing.document (drawing : Drawing) (nodes : List Panel) (lines : List Line) : Document :=
  ⟨"wiring_diagram", Sketch.header drawing :: (nodes.map Panel.statement ++
    lines.map (Line.statement drawing.palette))⟩

/-- What is read of a document: settings and nodes, and then an edge for each line. -/
structure Conveys (nodes : List Panel) (lines : List Line) (es : List Entry) : Prop where
  edges : ∃ front edges, es = front ++ edges ∧ (∀ p q as, .stated (.edge p q) as ∉ front) ∧
    List.Forall₂ Line.Reads lines edges
  tabled : ∀ n ∈ nodes, Tabled es (figures n.id) n.table.toList

theorem Panel.Faithful.entries?_statement {s : Store} {d : Diagram} {n : Panel} (h : n.Faithful s d) :
    n.statement.entries? = some [n.entry] := entries?_nodeStatement h.scans

section Entries
variable {s : Store} {drawing : Drawing} {d : Diagram} {looks : List Look} {nodes : List Panel} {lines : List Line}
  {es : List Entry}

theorem draw_eq_document {doc : Document} (h : s.draw drawing d = .ok doc) : ∃ looks lines,
    List.Forall₂ s.Shows d.boxes looks ∧ List.Forall₂ (s.Traces drawing d) d.wires lines ∧
      doc = drawing.document (Panel.all drawing.palette d looks) lines := by
  obtain ⟨looks, lines, hlooks, hlines, rfl⟩ := Store.draw_eq_ok h
  refine ⟨looks, lines, hlooks, hlines, ?_⟩
  rw [Drawing.document, Panel.all, List.map_cons, List.map_cons, List.map_map]
  rfl

theorem entries?_line {p : Palette} {l : Line} (h : (l.statement p).entries? = some es) :
    ∃ e, es = [e] ∧ l.Reads e := by
  obtain ⟨q, r, as, hq, hr, -, rfl⟩ := entries?_edge h
  exact ⟨_, rfl, q, r, as, hq, hr, rfl⟩

theorem entries?_lines {p : Palette} {ess : List (List Entry)}
    (h : (lines.map (Line.statement p)).mapM Statement.entries? = some ess) :
    List.Forall₂ Line.Reads lines ess.flatten := by
  rw [List.mapM_map] at h
  have hall := mapM_eq_some_iff.mp h
  clear h
  induction hall with
  | nil => exact .nil
  | cons hl _ ih =>
    obtain ⟨e, rfl, hreads⟩ := entries?_line hl
    exact .cons hreads ih

/-- A node is declared once, and its entry tells its table. -/
theorem tabled_of_mem {settings edges : List Entry} (hids : (nodes.map Panel.id).Nodup)
    (hs : ∀ e ∈ settings, ∃ k v, e = .setting k v) (hl : List.Forall₂ Line.Reads lines edges) {n : Panel}
    (hn : n ∈ nodes) : Tabled (settings ++ (nodes.map Panel.entry ++ edges)) (figures n.id) n.table.toList := by
  have hsettings : settings.filter (·.declares (figures n.id)) = [] := by
    refine List.filter_eq_nil_iff.mpr fun e he => ?_
    obtain ⟨k, v, rfl⟩ := hs e he
    exact Bool.false_ne_true
  have hedges : edges.filter (·.declares (figures n.id)) = [] := by
    refine List.filter_eq_nil_iff.mpr fun e he => ?_
    obtain ⟨l, -, q, r, as, -, -, rfl⟩ := mem_of_forall₂ hl he
    exact Bool.false_ne_true
  have hdeclares : (fun m : Panel => m.entry.declares (figures n.id)) = fun m => decide (m.id = n.id) := by
    funext m
    simp [Panel.entry, declares_tableEntry, figures_inj]
  refine ⟨[(.text "shape".toList, .text "plain".toList)], ?_⟩
  rw [List.filter_append, List.filter_append, hsettings, hedges, List.filter_map, Function.comp_def, hdeclares,
    filter_eq_singleton hids hn]
  rfl

theorem conveys_of_entries (hn : ∀ n ∈ nodes, n.statement.entries? = some [n.entry])
    (hids : (nodes.map Panel.id).Nodup) (h : (drawing.document nodes lines).entries? = some es) :
    Conveys nodes lines es := by
  have hnodes : (nodes.map Panel.statement).mapM Statement.entries? = some (nodes.map fun n => [n.entry]) := by
    rw [List.mapM_map]
    exact mapM_eq_some_iff.mpr (List.forall₂_map_right_iff.mpr (List.forall₂_same.mpr hn))
  simp only [Document.entries?, Drawing.document, List.mapM_cons, List.mapM_append, hnodes, Option.bind_eq_bind,
    Option.bind_eq_some_iff, Option.pure_def, Option.some.injEq] at h
  obtain ⟨_, ⟨settings, hsettings, _, ⟨_, rfl, ess, hlines, rfl⟩, rfl⟩, rfl⟩ := h
  have hs : ∀ e ∈ settings, ∃ k v, e = .setting k v := by
    obtain ⟨ps, -, rfl⟩ := entries?_graph hsettings
    intro e he
    obtain ⟨a, -, rfl⟩ := List.mem_map.mp he
    exact ⟨_, _, rfl⟩
  rw [List.flatten_cons, List.flatten_append, ← List.flatMap_def, ← List.map_eq_flatMap]
  refine ⟨⟨settings ++ nodes.map Panel.entry, ess.flatten, by simp, fun p q as hmem => ?_, entries?_lines hlines⟩,
    fun n hn => tabled_of_mem hids hs (entries?_lines hlines) hn⟩
  rcases List.mem_append.mp hmem with hmem | hmem
  · obtain ⟨k, v, heq⟩ := hs _ hmem
    cases heq
  · obtain ⟨n, -, heq⟩ := List.mem_map.mp hmem
    cases heq

theorem exists_attributes {as : Attributes} (h : ∀ a ∈ as, Legible a.1 ∧ Legible a.2) :
    ∃ ps, as.entries? = some ps := by
  refine exists_mapM fun a ha => ?_
  obtain ⟨hkey, hvalue⟩ := h a ha
  obtain ⟨k, hk⟩ := Option.isSome_iff_exists.mp hkey
  obtain ⟨v, hv⟩ := Option.isSome_iff_exists.mp hvalue
  exact ⟨(k, v), by rw [hk, hv]; rfl⟩

theorem exists_line_attributes {p : Palette} {label : String} (hlabel : Legible label) (hwire : Legible p.wire) :
    ∃ ps, Attributes.entries? (("label", label) :: lineStyle p) = some ps := by
  have hconstant : ∀ c ∈ ["label", "arrowhead", "none", "arrowsize", "1.0", "color", "fontcolor", "black", "fontname",
      Palette.fontface, "fontsize", "9", "penwidth", "1.5"], Legible c := by decide
  simp only [List.forall_mem_cons] at hconstant
  exact exists_attributes (by simp [lineStyle, lineAttributes, *])

theorem exists_header_attributes (hrankdir : Legible drawing.rankdir)
    (hbackground : Legible drawing.palette.background) : ∃ es, (Sketch.header drawing).entries? = some es := by
  have hconstant : ∀ c ∈ ["bgcolor", "margin", "0", "nodesep", "0.15", "rankdir", "ranksep", "0.1"], Legible c := by
    decide
  simp only [List.forall_mem_cons] at hconstant
  have hlegible : ∀ a ∈ [("bgcolor", drawing.palette.background), ("margin", "0"), ("nodesep", "0.15"),
      ("rankdir", drawing.rankdir), ("ranksep", "0.1")], Legible a.1 ∧ Legible a.2 := by simp [*]
  obtain ⟨ps, hps⟩ := exists_attributes hlegible
  exact ⟨_, by rw [Sketch.header, Statement.entries?, hps]; rfl⟩

/-- A document says something if its settings do, and the labels and the ends of its lines. -/
theorem exists_document_entries (hn : ∀ n ∈ nodes, n.statement.entries? = some [n.entry])
    (hsettings : ∀ setting ∈ [drawing.rankdir, drawing.palette.background, drawing.palette.wire], Legible setting)
    (hlines : ∀ l ∈ lines, Legible l.label ∧ ∃ p q, place? l.source = some p ∧ place? l.target = some q) :
    ∃ es, (drawing.document nodes lines).entries? = some es := by
  simp only [List.forall_mem_cons] at hsettings
  obtain ⟨hrankdir, hbackground, hwire, -⟩ := hsettings
  obtain ⟨ess, hess⟩ : ∃ ess, (drawing.document nodes lines).statements.mapM Statement.entries? = some ess := by
    refine exists_mapM (List.forall_mem_cons.mpr ⟨exists_header_attributes hrankdir hbackground,
      List.forall_mem_append.mpr ⟨?_, ?_⟩⟩)
    · exact List.forall_mem_map.mpr fun n hmem => ⟨_, hn n hmem⟩
    · refine List.forall_mem_map.mpr fun l hmem => ?_
      obtain ⟨hlabel, p, q, hsource, htarget⟩ := hlines l hmem
      obtain ⟨ps, hps⟩ := exists_line_attributes hlabel hwire
      exact ⟨_, by rw [Line.statement, Statement.entries?, hsource, htarget, hps]; rfl⟩
  exact ⟨ess.flatten, by rw [Document.entries?, hess]; rfl⟩

theorem written?_title : written? "wiring_diagram".toList = some (.text "wiring_diagram".toList) := by decide

theorem read_document (h : (drawing.document nodes lines).entries? = some es) :
    read (drawing.document nodes lines).text.toList = some (.text "wiring_diagram".toList, es) :=
  read_text written?_title h

theorem Line.Reads.traverses {w : Wire} {l : Line} {e : Entry} (h : l.Reads e) (hl : s.Traces drawing d w l) :
    Traverses w e := by
  obtain ⟨p, q, attributes, hp, hq, rfl⟩ := h
  have hplace : ∀ {c : Connector} {name : String} {r : Place}, s.connectorName c = .ok name → place? name = some r →
      ∀ t : Ending, c = t.connector → r = t.place := by
    rintro c name r hname hr t rfl
    rw [Store.connectorName_tip] at hname
    rw [← Except.ok.inj hname, t.place?_name] at hr
    exact (Option.some.inj hr).symm
  exact ⟨p, q, attributes, rfl, fun t => ⟨hplace hl.source hp t, hplace hl.target hq t⟩⟩

/-- The line of a wire between numbered ports names two places. -/
theorem exists_places {w : Wire} {l : Line} (hw : w.Plain) (hl : s.Traces drawing d w l) :
    ∃ p q, place? l.source = some p ∧ place? l.target = some q := by
  obtain ⟨⟨t, u⟩, rfl⟩ := hw
  exact ⟨t.place, u.place, Except.ok.inj hl.source ▸ t.place?_name, Except.ok.inj hl.target ▸ u.place?_name⟩

theorem legible_label {w : Wire} {l : Line}
    (h : drawing.showTypes = true → ∀ label, s.wireLabel d w = .ok label → Legible label)
    (hl : s.Traces drawing d w l) : Legible l.label := by
  have hlabel := hl.label
  split at hlabel
  · next hshow => exact h hshow _ hlabel
  · rw [← Except.ok.inj hlabel]
    decide

/-- An end of a wire is on a box of the diagram, and that is one of the nodes. -/
theorem exists_panel {p : Palette} {t : Ending} (hl : List.Forall₂ s.Shows d.boxes looks)
    (ht : d.Has t.connector) : ∃ n ∈ Panel.all p d looks, t.box = n.id := by
  obtain ⟨v, hv, hbox⟩ := ht
  rw [← Panel.ids_all p hl] at hv
  obtain ⟨n, hn, rfl⟩ := List.mem_map.mp hv
  exact ⟨n, hn, Value.int.inj (Value.norm_of_boxId? hbox)⟩

end Entries

/-- An end of a wire at a numbered port is drawn at a node that the text declares once. The table of the node has
a cell for the port if and only if the check of the wire finds the port in range, as it does in a valid diagram.
All that is read from a text in which each name, port and value can be read back, as they can if all wires are
plain and the settings and labels can. -/
theorem ends_at_cells {s : Store} {drawing : Drawing} {d : Diagram} {doc : Document} (hd : d.Consistent)
    (hp : drawing.palette.Plain) (h : s.draw drawing d = .ok doc) :
    (∀ es, doc.entries? = some es →
      read doc.text.toList = some (.text "wiring_diagram".toList, es) ∧
      (∃ front edges, es = front ++ edges ∧ (∀ p q as, .stated (.edge p q) as ∉ front) ∧
        List.Forall₂ Traverses d.wires edges) ∧
      ∀ w ∈ d.wires, ∀ t : Ending, w.source = t.connector ∨ w.target = t.connector → ∃ table,
        Tabled es (figures t.box) table ∧ (cells table).Nodup ∧
        (portText t.side t.port ∈ cells table ↔
          ∀ n, s.portType d t.connector.toValue ≠ .error (.portOutOfRange t.connector.toValue n)) ∧
        (s.validate d = .ok () → portText t.side t.port ∈ cells table)) ∧
    ((∀ w ∈ d.wires, w.Plain) →
      (∀ setting ∈ [drawing.rankdir, drawing.palette.background, drawing.palette.wire], Legible setting) →
      (drawing.showTypes = true → ∀ w ∈ d.wires, ∀ label, s.wireLabel d w = .ok label → Legible label) →
      ∃ es, doc.entries? = some es) := by
  obtain ⟨looks, lines, hlooks, hlines, rfl⟩ := draw_eq_document h
  have hfaithful := Panel.faithful_all hp hd hlooks
  have hnodes := fun n hn => (hfaithful n hn).entries?_statement
  have hids : ((Panel.all drawing.palette d looks).map Panel.id).Nodup := by
    rw [Panel.ids_all _ hlooks]
    exact hd.live_nodup
  refine ⟨fun es hes => ?_, fun hw hsettings hlabels => ?_⟩
  · have hconveys := conveys_of_entries hnodes hids hes
    obtain ⟨front, edges, hsplit, hfront, hedges⟩ := hconveys.edges
    refine ⟨read_document hes, ⟨front, edges, hsplit, hfront, ?_⟩, fun w hw t ht => ?_⟩
    · exact forall₂_trans (fun _ _ _ htraces hreads => hreads.traverses htraces) hlines hedges
    have hhas : d.Has t.connector := by
      rcases ht with ht | ht
      · exact ht ▸ (hd.has_ends hw).1
      · exact ht ▸ (hd.has_ends hw).2
    obtain ⟨n, hn, hid⟩ := exists_panel (p := drawing.palette) hlooks hhas
    have hiff := (hfaithful n hn).mem_cells_iff hid
    refine ⟨n.table.toList, hid ▸ hconveys.tabled n hn, (hfaithful n hn).nodup_cells, hiff, fun hvalid => ?_⟩
    obtain ⟨a, b, ha, hb, -⟩ := Store.validate_eq_ok.mp hvalid w hw
    refine hiff.mpr fun m herr => ?_
    rcases ht with ht | ht
    · rw [ht, Store.Types, herr] at ha
      cases ha
    · rw [ht, Store.Types, herr] at hb
      cases hb
  · refine exists_document_entries hnodes hsettings fun l hl => ?_
    obtain ⟨w, hwmem, htraces⟩ := mem_of_forall₂ hlines hl
    exact ⟨legible_label (fun hshow => hlabels hshow w hwmem) htraces, exists_places (hw w hwmem) htraces⟩

def Diagram.between (a : Value) : Diagram :=
  wired [a] [a] [.atomic (.hom (.text "f") [a] [a])] [.ofPorts 0 0 2 0, .ofPorts 2 0 1 0]

theorem ends_at_cells_between : let d := Diagram.between (.object "A")
    ∃ doc es table, Store.empty.draw .standard d = .ok doc ∧
      read doc.text.toList = some (.text "wiring_diagram".toList, es) ∧ Tabled es (figures 2) table ∧
      Store.empty.validate d = .ok () ∧ portText .input 0 ∈ cells table := by
  intro d
  have hd : d.Consistent := Diagram.consistent_wired _ _ _ _
  have hwires : d.wires = [.ofPorts 0 0 2 0, .ofPorts 2 0 1 0] := by decide
  have hplain : ∀ w ∈ d.wires, w.Plain := by
    rw [hwires]
    simp only [List.forall_mem_cons]
    exact ⟨⟨(⟨0, .output, 0⟩, ⟨2, .input, 0⟩), rfl⟩, ⟨(⟨2, .output, 0⟩, ⟨1, .input, 0⟩), rfl⟩, nofun⟩
  have hlabels : ∀ w ∈ d.wires, Store.empty.wireLabel d w = .ok "A" := by
    rw [hwires]
    simp only [List.forall_mem_cons]
    exact ⟨rfl, rfl, nofun⟩
  have hvalid : Store.empty.validate d = .ok () := by decide
  obtain ⟨doc, hdoc⟩ : ∃ doc, Store.empty.draw .standard d = .ok doc := ⟨_, rfl⟩
  obtain ⟨hconveys, hexists⟩ := ends_at_cells hd (Palette.plain_of_named (by decide)) hdoc
  obtain ⟨es, hes⟩ := hexists hplain (by decide) fun _ w hw label hlabel => by
    rw [hlabels w hw] at hlabel
    rw [← Except.ok.inj hlabel]
    decide
  obtain ⟨hread, -, hends⟩ := hconveys es hes
  obtain ⟨table, htabled, -, -, hcell⟩ := hends (.ofPorts 0 0 2 0) (by simp [hwires]) ⟨2, .input, 0⟩ (Or.inr rfl)
  exact ⟨doc, es, table, hdoc, hread, htabled, hvalid, hcell hvalid⟩

/-- The second input, by a value that is equal to its number and is written differently, goes to the output. -/
def Diagram.misspelt : Diagram :=
  wired [.object "A", .object "A"] [.object "A"] [] [⟨.output (.ofNat 0) (.truth true), .input (.ofNat 1) (.ofNat 0)⟩]

def misspeltLine : Line := ⟨"A", "0:out.True", "1:in.0"⟩

/-- What is written behind the second colon of a port is a node and a line break here. -/
def Diagram.broken : Diagram :=
  wired [.object "A"] [] [] [⟨.output (.ofNat 0) (.ofNat 0), .input (.ofNat 1) (.text "x:n [k=v]\n\t0")⟩]

def brokenLine : Line := ⟨"A", "0:out.0", "1:in.x:n [k=v]\n\t0"⟩

def brokenEntries (attributes : List (Datum × Datum)) : List Entry :=
  [.stated (.edge (Ending.place ⟨0, .output, 0⟩) ⟨.text ['1'], [.text "in.x".toList, .text ['n']]⟩)
    [(.text ['k'], .text ['v'])], .stated (.node ⟨.text ['0'], []⟩) attributes]

def Diagram.dangling : Diagram := wired [] [.object "A"] [] [.ofPorts 0 0 1 0]

def Palette.celled : Palette := { Palette.standard with boundary := "w\"><TD PORT=\"out.0" }

section Amiss
variable (d : Diagram)

theorem nodup_boundary (p : Palette) : ((Panel.all p d []).map Panel.id).Nodup := by
  simp [Panel.all, Panel.ofInputs, Panel.ofOutputs, inputId, outputId]

theorem entries?_boundary : ∀ n ∈ Panel.all .standard d [], n.statement.entries? = some [n.entry] :=
  have hp : Palette.standard.Plain := Palette.plain_of_named (by decide)
  List.forall_mem_cons.mpr ⟨(Panel.faithful_ofInputs .empty hp d).entries?_statement,
    List.forall_mem_singleton.mpr (Panel.faithful_ofOutputs .empty hp d).entries?_statement⟩

theorem legible_standard : ∀ setting ∈ [Drawing.standard.rankdir, Palette.standard.background, Palette.standard.wire],
    Legible setting := by decide

theorem read_misspelt : ∃ es q attributes,
    read (Drawing.standard.document (Panel.all .standard d []) [misspeltLine]).text.toList =
      some (.text "wiring_diagram".toList, es) ∧
    .stated (.edge ⟨.text (figures 0), [.text "out.True".toList]⟩ q) attributes ∈ es ∧
    Tabled es (figures 0) (Panel.ofInputs .standard d).table.toList := by
  have hlabel : Legible misspeltLine.label := by decide
  have hsource : place? misspeltLine.source = some ⟨.text (figures 0), [.text "out.True".toList]⟩ := by decide
  have htarget : place? misspeltLine.target = some ⟨.text (figures 1), [.text "in.0".toList]⟩ := by decide
  obtain ⟨es, hes⟩ := exists_document_entries (entries?_boundary d) legible_standard
    (List.forall_mem_singleton.mpr ⟨hlabel, _, _, hsource, htarget⟩)
  have hconveys := conveys_of_entries (entries?_boundary d) (nodup_boundary d _) hes
  obtain ⟨front, edges, hsplit, -, hedges⟩ := hconveys.edges
  obtain ⟨e, edges', ⟨q, r, as, hq, -, rfl⟩, -, rfl⟩ := List.forall₂_cons_left_iff.mp hedges
  have hplace := Option.some.inj (hsource.symm.trans hq)
  refine ⟨es, r, as, read_document hes, ?_, hconveys.tabled (Panel.ofInputs .standard d) List.mem_cons_self⟩
  rw [hplace, hsplit]
  exact List.mem_append_right _ List.mem_cons_self

/-- The first of the two nodes is drawn, and the second one is between the lines of the edge. -/
theorem read_broken : ∃ es,
    read (Drawing.standard.document (Panel.all .standard d []) [brokenLine]).text.toList =
      some (.text "wiring_diagram".toList, es) ∧ (es.filter (·.declares (figures 0))).length = 2 := by
  obtain ⟨es, hes⟩ : ∃ es, (Drawing.standard.document (Panel.all .standard d []) []).entries? = some es :=
    exists_document_entries (entries?_boundary d) legible_standard nofun
  have hconveys := conveys_of_entries (entries?_boundary d) (nodup_boundary d _) hes
  obtain ⟨attributes, hfilter⟩ := hconveys.tabled (Panel.ofInputs .standard d) List.mem_cons_self
  obtain ⟨ps, hps⟩ : ∃ ps, Attributes.entries? (("label", "A") :: lineStyle .standard) = some ps :=
    exists_line_attributes (by decide) (by decide)
  have hsource : Yields (edgeEndText brokenLine.source).toList (Ending.place ⟨0, .output, 0⟩).tokens :=
    (place?_spec (Ending.place?_name ⟨0, .output, 0⟩)).2
  have hword : scan step .between (edgeEndText brokenLine.target).toList = ([.datum (.text ['1']), .colon,
      .datum (.text "in.x".toList), .colon, .datum (.text ['n']), .opening, .datum (.text ['k']), .equals,
      .datum (.text ['v']), .closing], .word ['0']) := by decide
  have hnode : wordToken ['0'] = some (.datum (.text ['0'])) := by decide
  have hscan : scan step .between ([brokenLine.statement .standard].flatMap fun st => st.text.toList) =
      ((brokenEntries ps).flatMap Entry.tokens, .between) := by
    have hline := scan_edge hsource (yields_of_scan_word hword hnode) hps
    rw [List.flatMap_singleton, Line.statement]
    simpa [brokenEntries, brokenLine, Entry.tokens, Head.tokens, Place.tokens, partTokens, pairTokens] using hline
  have hshort : ∀ e ∈ brokenEntries ps, e.Short := by
    simp [brokenEntries, Entry.Short, Place.Short, Ending.place]
  have hparse : parse .fresh ((brokenEntries ps).flatMap Entry.tokens ++ [.stop]) = some (brokenEntries ps) := by
    rw [parse_entries hshort]
    exact congrArg some (List.append_nil _)
  have hdrawn : (es.filter (·.declares (figures 0))).length = 1 := congrArg List.length hfilter
  have hagain : ((brokenEntries ps).filter (·.declares (figures 0))).length = 1 := by
    have hzero : figures 0 = ['0'] := by decide
    simp [brokenEntries, Entry.declares, hzero]
  refine ⟨es ++ brokenEntries ps, ?_, ?_⟩
  · have hread := read_append written?_title hes hscan hparse
    rw [← hread]
    simp [Drawing.document, Drawing.standard]
  · rw [List.filter_append, List.length_append, hdrawn, hagain]

theorem read_celled : ∃ es,
    read (Drawing.document ⟨.celled, true, "TB"⟩ (Panel.all .celled d []) [⟨"", "0:out.0", "1:in.0"⟩]).text.toList =
      some (.text "wiring_diagram".toList, es) ∧ ∃ table,
    Tabled es (figures 0) table ∧ portText .output 0 ∈ cells table := by
  have hp : Palette.standard.Plain := Palette.plain_of_named (by decide)
  have hcolour : scan stepTag (.value "TABLE".toList "COLOR".toList [])
      (Palette.celled.boundary.toList ++ ['"', '>']) = ([portText .output 0], .outside) := by decide
  have hplain : ∀ label ∈ ["inputs", "outputs"], IsPlain label.toList := by decide
  -- Only the colour of the border is another one.
  have hscan : ∀ label ∈ ["inputs", "outputs"], ∀ m n, scan stepTag .outside
      (Palette.celled.boundaryTable label m n).toList =
        ([portText .output 0] ++ (Palette.portNames .input m ++ Palette.portNames .output n), .outside) :=
    fun label hl m n => Palette.scan_boxTable_of_colour hp (fun c hc => (hplain label hl c hc).2) hp.background hcolour
  have hinputs := hscan "inputs" (by simp) 0 d.inputs.length
  have houtputs := hscan "outputs" (by simp) d.outputs.length 0
  have hnodes : ∀ n ∈ Panel.all .celled d [], n.statement.entries? = some [n.entry] := List.forall_mem_cons.mpr
    ⟨entries?_nodeStatement hinputs, List.forall_mem_singleton.mpr (entries?_nodeStatement houtputs)⟩
  have hlegible : ∀ setting ∈ ["TB", Palette.celled.background, Palette.celled.wire], Legible setting := by
    decide
  have hlines : ∀ l ∈ [(⟨"", "0:out.0", "1:in.0"⟩ : Line)], Legible l.label ∧ ∃ p q,
      place? l.source = some p ∧ place? l.target = some q :=
    List.forall_mem_singleton.mpr ⟨by decide, _, _, Ending.place?_name ⟨0, .output, 0⟩,
      Ending.place?_name ⟨1, .input, 0⟩⟩
  obtain ⟨es, hes⟩ : ∃ es, (Drawing.document ⟨.celled, true, "TB"⟩ (Panel.all .celled d []) _).entries? = some es :=
    exists_document_entries hnodes hlegible hlines
  have hconveys := conveys_of_entries hnodes (nodup_boundary d _) hes
  refine ⟨es, read_document hes, _, hconveys.tabled (Panel.ofInputs .celled d) List.mem_cons_self, ?_⟩
  rw [cells, Panel.ofInputs, hinputs]
  exact List.mem_cons_self

end Amiss

/-- The edge of a valid diagram does not end at a cell. A node is declared again, in the middle of an edge that
ends at it. And there is a cell for a port that is out of range. -/
theorem ends_amiss :
    (Store.empty.validate misspelt = .ok () ∧ ∃ doc es q attributes table,
      Store.empty.draw .standard misspelt = .ok doc ∧
      read doc.text.toList = some (.text "wiring_diagram".toList, es) ∧
      .stated (.edge ⟨.text (figures 0), [.text "out.True".toList]⟩ q) attributes ∈ es ∧
      Tabled es (figures 0) table ∧ "out.True".toList ∉ cells table) ∧
    (broken.wires.map Wire.source = [(⟨0, .output, 0⟩ : Ending).connector] ∧ ∃ doc es,
      Store.empty.draw .standard broken = .ok doc ∧
      read doc.text.toList = some (.text "wiring_diagram".toList, es) ∧
      (es.filter (·.declares (figures 0))).length = 2) ∧
    dangling.wires.map Wire.source = [(⟨0, .output, 0⟩ : Ending).connector] ∧
      Store.empty.portType dangling (⟨0, .output, 0⟩ : Ending).connector.toValue =
        .error (.portOutOfRange (⟨0, .output, 0⟩ : Ending).connector.toValue 0) ∧ ∃ doc es table,
      Store.empty.draw ⟨.celled, true, "TB"⟩ dangling = .ok doc ∧
      read doc.text.toList = some (.text "wiring_diagram".toList, es) ∧
      Tabled es (figures 0) table ∧ portText .output 0 ∈ cells table := by
  refine ⟨⟨by decide, ?_⟩, ⟨by decide, ?_⟩, by decide, by decide, ?_⟩
  · obtain ⟨es, q, attributes, hread, hedge, htabled⟩ := read_misspelt misspelt
    have hp : Palette.standard.Plain := Palette.plain_of_named (by decide)
    have hinputs := Panel.faithful_ofInputs .empty hp misspelt
    refine ⟨_, es, q, attributes, _, rfl, hread, hedge, htabled, ?_⟩
    rw [cells, hinputs.scans]
    decide
  · obtain ⟨es, hread, htwice⟩ := read_broken broken
    exact ⟨_, es, rfl, hread, htwice⟩
  · obtain ⟨es, hread, table, htabled, hcell⟩ := read_celled dangling
    exact ⟨_, es, table, rfl, hread, htabled, hcell⟩

end StringDiagram
