import StringDiagram.Proofs.Category.Correspond
import StringDiagram.Proofs.Linear.Strands
import StringDiagram.Proofs.Substitution.Direct

/-! # A diagram with one box

The diagram that holds one box leads the wires at its boundary straight to the ports of the box. In the
place of a box with these ports it gives every wire back once, on the box that came in: `spliced_solo`. A
wire from the box to itself is found in two steps, from the new output to the old input and from there to
the new one; wires with one end on the old box, which are found on the way, go with it. Another diagram in
the place of its one box comes out of it as it went in: `solo_spliced`. -/
namespace StringDiagram
open Diagram

namespace Network
variable {N : Type} {meets : N → N → Bool} {H I O A B : Multiset (N × N)}

theorem seq_singleton (A : Multiset (N × N)) (b : N × N) :
    seq meets A {b} = (A.filter fun a => meets a.2 b.1 = true).map fun a => (a.1, b.2) := by
  induction A using Multiset.induction_on with
  | empty => rfl
  | cons a A ih =>
    rw [seq, Multiset.cons_bind, ← seq, ih, Multiset.filter_cons, Multiset.filter_singleton]
    cases meets a.2 b.1 <;> simp

/-- What follows, from the last arrow back. -/
theorem seq_eq_bind (A B : Multiset (N × N)) : seq meets A B =
    B.bind fun b => (A.filter fun a => meets a.2 b.1 = true).map fun a => (a.1, b.2) := by
  induction B using Multiset.induction_on with
  | empty => simp [seq]
  | cons b B ih => rw [← Multiset.singleton_add, seq_add_right, ih, seq_singleton, Multiset.add_bind,
      Multiset.singleton_bind]

/-- Arrows `H` between arrows `O`, which nothing leads to, and arrows `I`, which lead to nothing. -/
theorem solves_between (hH : seq meets H H = 0) (hI : ∀ B, seq meets I B = 0) (hO : ∀ A, seq meets A O = 0)
    (hOI : seq meets O I = 0) :
    Solves meets (H + (I + O)) (H + (I + O) + (seq meets H I + (seq meets O H + seq meets O (seq meets H I)))) := by
  have hzero : ∀ B : Multiset (N × N), seq meets 0 B = 0 := fun B => Multiset.zero_bind _
  have hHHI : seq meets H (seq meets H I) = 0 := by rw [← seq_assoc, hH, hzero]
  have hHO : ∀ B, seq meets H (seq meets O B) = 0 := fun B => by rw [← seq_assoc, hO, hzero]
  have hOO : ∀ B, seq meets O (seq meets O B) = 0 := fun B => by rw [← seq_assoc, hO, hzero]
  -- All other products vanish, so that only walks of at most three arrows are left.
  rw [Solves]
  simp only [seq_add_left, seq_add_right, hH, hI, hO, hOI, hHHI, hHO, hOO, add_zero, zero_add]
  abel

end Network
open Network

/-- If the connector is on box `v`, it is one of the first `n` ports on that side. -/
def Connector.Among (c : Connector) (v : Nat) (side : Side) (n : Nat) : Prop :=
  c.isOn v = true → ∃ i < n, c.same (.numbered v side i) = true

instance (c : Connector) (v : Nat) (side : Side) (n : Nat) : Decidable (c.Among v side n) :=
  inferInstanceAs (Decidable (_ → ∃ i < n, _))

def Connector.portNo (c : Connector) : Nat := c.port.boxId?.getD 0

namespace Connector
variable {c : Connector} {v n i : Nat} {side : Side}

theorem portNo_eq (h : c.same (.numbered v side i) = true) : c.portNo = i := by
  have hport := Value.boxId?_eq_some.mpr (same_iff.mp h).2.2
  rw [portNo, hport]
  rfl

theorem Among.same_portNo (h : c.Among v side n) (hon : c.isOn v = true) :
    c.portNo < n ∧ c.same (.numbered v side c.portNo) = true := by
  obtain ⟨i, hi, hs⟩ := h hon
  rw [portNo_eq hs]
  exact ⟨hi, hs⟩

/-- The port by number, on another box. -/
theorem Among.norm_numbered (h : c.Among v side n) (hon : c.isOn v = true) (u : Nat) :
    (numbered u side c.portNo).norm = (c.withBox (.ofNat u)).norm := by
  obtain ⟨-, hkind, hport⟩ := same_iff.mp (h.same_portNo hon).2
  rw [norm, norm, withBox, Value.same_iff.mp hkind, Value.same_iff.mp hport]
  rfl

/-- The port with the same number elsewhere. -/
theorem Among.port (h : c.Among v side n) (hon : c.isOn v = true) (u : Nat) (other : Side) :
    (⟨.ofNat u, .side other, c.port⟩ : Connector).Among u other n := by
  intro _
  obtain ⟨hlt, hsame⟩ := h.same_portNo hon
  refine ⟨c.portNo, hlt, same_iff.mpr ⟨?_, ?_, ?_⟩⟩
  · apply Value.same_refl
  · apply Value.same_refl
  · exact (same_iff.mp hsame).2.2

/-- It is exactly one of these ports, or none. -/
theorem Among.filter_range (h : c.Among v side n) :
    ((Multiset.range n).filter fun i => c.same (.numbered v side i) = true) =
      if c.isOn v = true then {c.portNo} else 0 := by
  split
  · next hon =>
    obtain ⟨hlt, hsame⟩ := h.same_portNo hon
    have hiff : ∀ i ∈ Multiset.range n, (c.same (.numbered v side i) = true ↔ i = c.portNo) :=
      fun i _ => ⟨fun hi => (portNo_eq hi).symm, fun hi => hi ▸ hsame⟩
    rw [Multiset.filter_congr hiff, Multiset.filter_eq', Multiset.count_eq_one_of_mem
      (Multiset.nodup_range n) (Multiset.mem_range.mpr hlt), Multiset.replicate_one]
  · next hon =>
    refine Multiset.filter_eq_nil.mpr fun i _ hsame => hon ?_
    rw [isOn_eq_of_same hsame, isOn_numbered]
    simp

end Connector

theorem bind_ite {α β : Type} (A : Multiset α) (p : α → Bool) (f : α → β) :
    (A.bind fun a => if p a = true then {f a} else 0) = (A.filter fun a => p a = true).map f := by
  induction A using Multiset.induction_on with
  | empty => rfl
  | cons a A ih =>
    rw [Multiset.cons_bind, ih, Multiset.filter_cons, Multiset.map_add]
    cases p a <;> simp

namespace Diagram
variable {d : Diagram} {v m n : Nat} {X Y : Multiset (Node × Node)}

def inlets (m : Nat) : Multiset (Node × Node) :=
  (Multiset.range m).map fun i => ((1, .numbered inputId .output i), (1, .numbered 2 .input i))

def outlets (n : Nat) : Multiset (Node × Node) :=
  (Multiset.range n).map fun j => ((1, .numbered 2 .output j), (1, .numbered outputId .input j))

/-- What ends in the host at box `v` goes on to the port of the one box with the same number. -/
theorem seq_inlets (hY : ∀ y ∈ Y, y.2.1 = 0 ∧ y.2.2.Among v .input m) : seq (meets v 0 1) Y (inlets m) =
    (Y.filter fun y => y.2.2.isOn v = true).map fun y => (y.1, (1, .numbered 2 .input y.2.2.portNo)) := by
  rw [seq, ← bind_ite]
  refine Multiset.bind_congr fun y hy => ?_
  obtain ⟨hlayer, hamong⟩ := hY y hy
  have hmeets : ∀ i ∈ Multiset.range m, (meets v 0 1 y.2 (1, .numbered inputId .output i) = true ↔
      y.2.2.same (.numbered v .input i) = true) := by
    intro i _
    simp [meets, hlayer]
  rw [inlets, Multiset.filter_map, Multiset.map_map]
  simp only [Function.comp_def]
  rw [Multiset.filter_congr hmeets, hamong.filter_range]
  split <;> rfl

theorem seq_outlets (hX : ∀ x ∈ X, x.1.1 = 0 ∧ x.1.2.Among v .output n) : seq (meets v 0 1) (outlets n) X =
    (X.filter fun x => x.1.2.isOn v = true).map fun x => ((1, .numbered 2 .output x.1.2.portNo), x.2) := by
  rw [seq_eq_bind, ← bind_ite]
  refine Multiset.bind_congr fun x hx => ?_
  obtain ⟨hlayer, hamong⟩ := hX x hx
  have hmeets : ∀ j ∈ Multiset.range n, (meets v 0 1 (1, .numbered outputId .input j) x.1 = true ↔
      x.1.2.same (.numbered v .output j) = true) := by
    intro j _
    simp [meets, hlayer]
  rw [outlets, Multiset.filter_map, Multiset.map_map]
  simp only [Function.comp_def]
  rw [Multiset.filter_congr hmeets, hamong.filter_range]
  split <;> rfl

theorem meets_inlet {a : Node × Node} (ha : a ∈ inlets m) (b : Node) : meets v 0 1 a.2 b = false := by
  obtain ⟨i, -, rfl⟩ := Multiset.mem_map.mp ha
  simp [meets, outputId]

theorem meets_outlet {b : Node × Node} (hb : b ∈ outlets n) (a : Node) : meets v 0 1 a b.1 = false := by
  obtain ⟨j, -, rfl⟩ := Multiset.mem_map.mp hb
  simp [meets, inputId]

theorem solo_wires (ins outs : List Value) (b : Value) :
    ((solo ins outs b).wires.map (arrow 1) : Multiset (Node × Node)) = inlets ins.length + outlets outs.length := by
  rw [← Multiset.map_coe, (woven_solo ins outs b).wires, zero_add, Multiset.map_add, strand, strand,
    Multiset.map_map, Multiset.map_map, inlets, outlets]
  simp only [Function.comp_def, Nat.zero_add]
  rfl

/-- Every wire leads into the one box or out of it. -/
theorem ends_solo {ins outs : List Value} {b : Value} {w : Wire} (hw : w ∈ (solo ins outs b).wires) :
    w.source.isOn inputId = true ∧ w.target.isOn 2 = true ∨
      w.source.isOn 2 = true ∧ w.target.isOn outputId = true := by
  rw [← Multiset.mem_coe, (woven_solo ins outs b).wires, zero_add, Multiset.mem_add, mem_strand, mem_strand] at hw
  obtain ⟨k, -, rfl⟩ | ⟨k, -, rfl⟩ := hw
  · exact Or.inl ⟨rfl, rfl⟩
  · exact Or.inr ⟨rfl, rfl⟩

theorem directed_solo (ins outs : List Value) (b : Value) : (solo ins outs b).Directed := by
  intro w hw
  rcases ends_solo hw with ⟨hs, ht⟩ | ⟨hs, ht⟩
  · exact ⟨Connector.isOn_eq_false hs (by decide), Connector.isOn_eq_false ht (by decide)⟩
  · exact ⟨Connector.isOn_eq_false hs (by decide), Connector.isOn_eq_false ht (by decide)⟩

/-- The rank of a node as a start: first out of the one box, then along a wire of the host, then into the
one box. Walks are no longer than that. -/
def soloStart (a : Node) : Nat := if a.1 = 0 then 1 else if a.2.isOn inputId then 2 else 0

def soloFinish (a : Node) : Nat := if a.1 = 0 then 1 else if a.2.isOn outputId then 0 else 2

theorem ranked_solo (d : Diagram) (v m n : Nat) : Ranked (meets v 0 1)
    ((d.wires.map (arrow 0) : Multiset (Node × Node)) + (inlets m + outlets n)) soloStart soloFinish 2 := by
  have hcases : ∀ a ∈ (d.wires.map (arrow 0) : Multiset (Node × Node)) + (inlets m + outlets n),
      (a ∈ (d.wires.map (arrow 0) : Multiset (Node × Node)) ∧ soloStart a.1 = 1 ∧ soloFinish a.2 = 1) ∨
      (a ∈ inlets m ∧ soloStart a.1 = 2 ∧ soloFinish a.2 = 2) ∨
      (a ∈ outlets n ∧ soloStart a.1 = 0 ∧ soloFinish a.2 = 0) := by
    intro a ha
    rcases Multiset.mem_add.mp ha with ha | ha
    · obtain ⟨w, -, rfl⟩ := mem_layer.mp ha
      exact Or.inl ⟨ha, rfl, rfl⟩
    · rcases Multiset.mem_add.mp ha with ha | ha
      · refine Or.inr (Or.inl ⟨ha, ?_⟩)
        obtain ⟨i, -, rfl⟩ := Multiset.mem_map.mp ha
        simp [soloStart, soloFinish, outputId]
      · refine Or.inr (Or.inr ⟨ha, ?_⟩)
        obtain ⟨j, -, rfl⟩ := Multiset.mem_map.mp ha
        simp [soloStart, soloFinish, inputId]
  refine ⟨fun a ha => ?_, fun a ha => ?_, fun a ha b hb hm => ?_⟩
  · rcases hcases a ha with ⟨-, hs, hf⟩ | ⟨-, hs, hf⟩ | ⟨-, hs, hf⟩ <;> omega
  · rcases hcases a ha with ⟨-, -, hf⟩ | ⟨-, -, hf⟩ | ⟨-, -, hf⟩ <;> omega
  · rcases hcases a ha with ⟨ha, -, hf⟩ | ⟨ha, -, -⟩ | ⟨-, -, hf⟩
    · rcases hcases b hb with ⟨hb, -, -⟩ | ⟨-, hs, -⟩ | ⟨hb, -, -⟩
      · rw [host_apart d v a ha b hb] at hm
        cases hm
      · omega
      · rw [meets_outlet hb] at hm
        cases hm
    · rw [meets_inlet ha] at hm
      cases hm
    · rcases hcases b hb with ⟨-, hs, -⟩ | ⟨-, hs, -⟩ | ⟨hb, -, -⟩
      · omega
      · omega
      · rw [meets_outlet hb] at hm
        cases hm

/-- All walks through the one box and the wires of the host. -/
theorem walks_solo (d : Diagram) (v : Nat) (ins outs : List Value) (b : Value) :
    let H : Multiset (Node × Node) := d.wires.map (arrow 0)
    d.walks (solo ins outs b) v = H + (inlets ins.length + outlets outs.length) +
      (seq (meets v 0 1) H (inlets ins.length) + (seq (meets v 0 1) (outlets outs.length) H +
        seq (meets v 0 1) (outlets outs.length) (seq (meets v 0 1) H (inlets ins.length)))) := by
  intro H
  have hnetwork : d.network (solo ins outs b) = H + (inlets ins.length + outlets outs.length) := by
    rw [network, solo_wires]
  have hr := ranked_solo d v ins.length outs.length
  have hwalks := solves_walks (hnetwork ▸ hr)
  rw [hnetwork] at hwalks
  refine hwalks.unique hr (solves_between ?_ ?_ ?_ ?_)
  · exact seq_eq_zero (host_apart d v)
  · exact fun B => seq_eq_zero fun a ha b _ => meets_inlet ha b.1
  · exact fun A => seq_eq_zero fun a _ b hb => meets_outlet hb a.2
  · refine seq_eq_zero fun a ha b hb => ?_
    obtain ⟨j, -, rfl⟩ := Multiset.mem_map.mp ha
    obtain ⟨i, -, rfl⟩ := Multiset.mem_map.mp hb
    rfl

theorem view_inlets (ids : IdMap) (m : Nat) : view ids (inlets m) = 0 := by
  rw [view, Multiset.filter_eq_nil.mpr, Multiset.map_zero]
  intro a ha
  obtain ⟨i, -, rfl⟩ := Multiset.mem_map.mp ha
  simp [opens]

theorem view_outlets (ids : IdMap) (n : Nat) : view ids (outlets n) = 0 := by
  rw [view, Multiset.filter_eq_nil.mpr, Multiset.map_zero]
  intro a ha
  obtain ⟨j, -, rfl⟩ := Multiset.mem_map.mp ha
  simp [closes]

/-- The wires by whether they start and whether they end on box `v`. -/
theorem filter_ends (W : Multiset Wire) (v : Nat) :
    W.filter (fun w => (!w.source.isOn v && !w.target.isOn v) = true) +
      (W.filter (fun w => (!w.source.isOn v && w.target.isOn v) = true) +
        (W.filter (fun w => (w.source.isOn v && !w.target.isOn v) = true) +
          W.filter fun w => (w.source.isOn v && w.target.isOn v) = true)) = W := by
  ext w
  simp only [Multiset.count_add, Multiset.count_filter]
  cases w.source.isOn v <;> cases w.target.isOn v <;> simp

section Spliced
variable {ins outs : List Value} {b : Value}

/-- The one box comes in under the next identifier. -/
theorem place_solo (d : Diagram) (ins outs : List Value) (b : Value) (side : Side) (i : Nat) :
    (inserted d (solo ins outs b)).place (.numbered 2 side i) = .numbered d.next side i := by
  have hwoven := woven_solo ins outs b
  have hkeys : (solo ins outs b).boxes.keys[0]? = some 2 := by
    rw [hwoven.boxes]
    rfl
  exact OnBox.place_eq hwoven.consistent ⟨2, hkeys, Value.boxId?_ofNat 2⟩ d

theorem view_map (ids : IdMap) (A : Multiset Wire) {g : Wire → Node × Node}
    (hg : ∀ w, (opens (g w).1 && closes (g w).2) = true) :
    view ids (A.map g) = A.map fun w => ⟨spot ids (g w).1, spot ids (g w).2⟩ := by
  rw [view, Multiset.filter_eq_self.mpr, Multiset.map_map]
  · rfl
  · intro a ha
    obtain ⟨w, -, rfl⟩ := Multiset.mem_map.mp ha
    exact hg w

def entering (w : Wire) : Node × Node := ((0, w.source), (1, .numbered 2 .input w.target.portNo))

def leaving (w : Wire) : Node × Node := ((1, .numbered 2 .output w.source.portNo), (0, w.target))

def looping (w : Wire) : Node × Node :=
  ((1, .numbered 2 .output w.source.portNo), (1, .numbered 2 .input w.target.portNo))

theorem seq_host_inlets (h : ∀ w ∈ d.wires, w.target.Among v .input m) :
    seq (meets v 0 1) (d.wires.map (arrow 0) : Multiset (Node × Node)) (inlets m) =
      ((d.wires : Multiset Wire).filter fun w => w.target.isOn v = true).map entering := by
  rw [seq_inlets, ← Multiset.map_coe, Multiset.filter_map, Multiset.map_map]
  · rfl
  · intro y hy
    obtain ⟨w, hw, rfl⟩ := mem_layer.mp hy
    exact ⟨rfl, h w hw⟩

theorem seq_outlets_host (h : ∀ w ∈ d.wires, w.source.Among v .output n) :
    seq (meets v 0 1) (outlets n) (d.wires.map (arrow 0) : Multiset (Node × Node)) =
      ((d.wires : Multiset Wire).filter fun w => w.source.isOn v = true).map leaving := by
  rw [seq_outlets, ← Multiset.map_coe, Multiset.filter_map, Multiset.map_map]
  · rfl
  · intro x hx
    obtain ⟨w, hw, rfl⟩ := mem_layer.mp hx
    exact ⟨rfl, h w hw⟩

theorem seq_outlets_inlets (h : ∀ w ∈ d.wires, w.source.Among v .output n ∧ w.target.Among v .input m) :
    seq (meets v 0 1) (outlets n) (seq (meets v 0 1) (d.wires.map (arrow 0)) (inlets m)) =
      ((d.wires : Multiset Wire).filter fun w => (w.source.isOn v && w.target.isOn v) = true).map looping := by
  rw [seq_host_inlets fun w hw => (h w hw).2, seq_outlets, Multiset.filter_map, Multiset.map_map,
    Multiset.filter_filter]
  · simp only [Function.comp_apply, entering, Bool.and_eq_true]
    rfl
  · intro x hx
    obtain ⟨w, hw, rfl⟩ := Multiset.mem_map.mp hx
    exact ⟨rfl, (h w (Multiset.mem_coe.mp (Multiset.mem_filter.mp hw).1)).1⟩

/-- A connector on box `v` moves with it, one that is elsewhere stays. -/
theorem renumber_update {c : Connector} {u : Nat} (hu : u ≠ v) : c.renumber (Function.update id v u) =
    if c.isOn v = true then c.withBox (.ofNat u) else c := by
  rw [Connector.renumber, Connector.isOn]
  cases hbox : c.box.boxId? with
  | none => simp
  | some n =>
    by_cases hn : n = v
    · subst hn
      simp [hu]
    · simp [hn]

/-- What the walks leave of each wire: the wire, and what they make of its ends on box `v`. -/
theorem view_walks_solo (h : ∀ w ∈ d.wires, w.source.Among v .output outs.length ∧
      w.target.Among v .input ins.length) :
    view (inserted d (solo ins outs b)) (d.walks (solo ins outs b) v) = (d.wires : Multiset Wire) +
      (((d.wires : Multiset Wire).filter fun w => w.target.isOn v = true).map
          (fun w => ⟨w.source, .numbered d.next .input w.target.portNo⟩) +
        (((d.wires : Multiset Wire).filter fun w => w.source.isOn v = true).map
            (fun w => ⟨.numbered d.next .output w.source.portNo, w.target⟩) +
          ((d.wires : Multiset Wire).filter fun w => (w.source.isOn v && w.target.isOn v) = true).map
            fun w => ⟨.numbered d.next .output w.source.portNo, .numbered d.next .input w.target.portNo⟩)) := by
  rw [walks_solo, seq_outlets_inlets h, seq_host_inlets fun w hw => (h w hw).2,
    seq_outlets_host fun w hw => (h w hw).1]
  -- Walks that stop at the boundary of the one box leave no wire.
  simp only [view_add, view_layer, view_inlets, view_outlets, add_zero]
  rw [view_map, view_map, view_map]
  · simp only [entering, leaving, looping, spot, place_solo]
    rfl
  all_goals
    intro w
    simp [opens, closes, entering, leaving, looping, inputId, outputId]

/-- Each wire of the host comes back once, on the box that came in. -/
theorem spliced_solo (hd : d.Consistent) (hv : v ∈ d.boxes.keys) (h : ∀ w ∈ d.wires,
      w.source.Among v .output outs.length ∧ w.target.Among v .input ins.length) :
    (d.spliced (solo ins outs b) v).map Wire.norm =
      (d.wires : Multiset Wire).map fun w => (w.renumber (Function.update id v d.next)).norm := by
  have hne : d.next ≠ v := (hd.below_next v (Consistent.box_live hv)).ne'
  have hoff : ∀ side i, (Connector.numbered d.next side i).isOn v = false := fun side i => by simp [hne]
  have hstay : ∀ {c : Connector}, c.isOn v = false → c.renumber (Function.update id v d.next) = c := fun hc => by
    rw [renumber_update hne, if_neg (by simp [hc])]
  have hmove : ∀ {c : Connector} {side : Side} {k : Nat}, c.Among v side k → c.isOn v = true →
      (Connector.numbered d.next side c.portNo).norm = (c.renumber (Function.update id v d.next)).norm := by
    intro c side k hc hon
    rw [renumber_update hne, if_pos hon]
    exact hc.norm_numbered hon d.next
  -- Of the four kinds of walks those are left that have no end on `v`, each from wires of its own kind.
  rw [spliced, view_walks_solo h]
  nth_rewrite 5 [← filter_ends d.wires v]
  simp only [Multiset.filter_add, Multiset.filter_map, Multiset.map_add, Multiset.map_map,
    Multiset.filter_filter, Function.comp_def, hoff, Bool.not_false, Bool.and_true, Bool.true_and]
  refine congrArg₂ _ ?_ (congrArg₂ _ ?_ (congrArg₂ _ ?_ ?_))
  · refine Multiset.map_congr rfl fun w hw => ?_
    obtain ⟨-, hw⟩ := Multiset.mem_filter.mp hw
    simp only [Bool.and_eq_true, Bool.not_eq_true'] at hw
    rw [Wire.renumber, hstay hw.1, hstay hw.2]
  · refine Multiset.map_congr (Multiset.filter_congr fun w _ => by simp) fun w hw => ?_
    obtain ⟨hw, hends⟩ := Multiset.mem_filter.mp hw
    simp only [Bool.and_eq_true, Bool.not_eq_true'] at hends
    rw [Wire.renumber, hstay hends.1, Wire.norm, Wire.norm, hmove (h w (Multiset.mem_coe.mp hw)).2 hends.2]
  · refine Multiset.map_congr (Multiset.filter_congr fun w _ => by simp [and_comm]) fun w hw => ?_
    obtain ⟨hw, hends⟩ := Multiset.mem_filter.mp hw
    simp only [Bool.and_eq_true, Bool.not_eq_true'] at hends
    rw [Wire.renumber, hstay hends.2, Wire.norm, Wire.norm, hmove (h w (Multiset.mem_coe.mp hw)).1 hends.1]
  · refine Multiset.map_congr (Multiset.filter_congr fun w _ => by simp) fun w hw => ?_
    obtain ⟨hw, hends⟩ := Multiset.mem_filter.mp hw
    simp only [Bool.and_eq_true] at hends
    obtain ⟨hs, ht⟩ := h w (Multiset.mem_coe.mp hw)
    rw [Wire.renumber, Wire.norm, Wire.norm, hmove hs hends.1, hmove ht hends.2]

end Spliced

def IdMap.apply (ids : IdMap) (u : Nat) : Nat := (ids.get? u).getD u

section Emerged
variable {b : Value} {c : Connector}

theorem apply_inserted (hd : d.Consistent) (g : Diagram) {i u : Nat} (hu : d.boxes.keys[i]? = some u) :
    (inserted g d).apply u = g.next + i := by
  rw [IdMap.apply, get?_inserted hd hu, Option.getD_some]

theorem apply_boundary (hd : d.Consistent) (g : Diagram) :
    (inserted g d).apply inputId = inputId ∧ (inserted g d).apply outputId = outputId := by
  obtain ⟨hin, hout⟩ := get?_inserted_boundary (d := g) hd
  rw [IdMap.apply, IdMap.apply, hin, hout]
  exact ⟨rfl, rfl⟩

/-- On a box that comes in, the connector is where the new number of the box says. -/
theorem place_eq_renumber (hd : d.Consistent) {i : Nat} (hc : d.OnBox i c) (g : Diagram) :
    (inserted g d).place c = c.renumber (inserted g d).apply := by
  have hplace := OnBox.place_eq hd hc g
  have hrenumber := OnBox.renumber hd hc (inserted g d).apply
  obtain ⟨u, hu, -⟩ := hc
  rw [hplace, hrenumber, keyAt_of_getElem? hu, apply_inserted hd g hu]

/-- The wire of a strand that has one of its ends at a port. -/
theorem filter_strand {a u n : Nat} {side : Side} {g : Wire → Connector}
    (hg : ∀ k, g (.ofPorts a k u k) = .numbered v side k) (hc : c.Among v side n) (hon : c.isOn v = true) :
    (strand a 0 u 0 n).filter (fun w => (g w).same c = true) = {.ofPorts a c.portNo u c.portNo} := by
  have hiff : ∀ k ∈ Multiset.range n, ((g (.ofPorts a (0 + k) u (0 + k))).same c = true ↔
      c.same (.numbered v side k) = true) := by
    intro k _
    rw [Nat.zero_add, hg]
    exact ⟨Connector.same_symm, Connector.same_symm⟩
  rw [strand, Multiset.filter_map]
  simp only [Function.comp_def]
  rw [Multiset.filter_congr hiff, hc.filter_range, if_pos hon, Multiset.map_singleton, Nat.zero_add]

/-- No wire of a strand has that end on another box. -/
theorem filter_strand_off {a u n : Nat} {g : Wire → Connector} (v : Nat) (side : Side)
    (hg : ∀ k, g (.ofPorts a k u k) = .numbered v side k) (hoff : c.isOn v = false) :
    (strand a 0 u 0 n).filter (fun w => (g w).same c = true) = 0 := by
  refine Multiset.filter_eq_nil.mpr fun w hw hsame => ?_
  obtain ⟨k, -, rfl⟩ := mem_strand.mp hw
  have hon := Connector.isOn_eq_of_same hsame v
  rw [hoff, Nat.zero_add, hg] at hon
  simp at hon

theorem upstream_solo (hd : d.Consistent) (hc : d.Inside inputId c) (hamong : c.Among inputId .output d.inputs.length) :
    ∃ x, (solo d.inputs d.outputs b).upstream 2 (inserted (solo d.inputs d.outputs b) d) c = {x} ∧
      x.norm = (c.renumber (inserted (solo d.inputs d.outputs b) d).apply).norm := by
  cases hon : c.isOn inputId with
  | true =>
    obtain ⟨-, hsame⟩ := hamong.same_portNo hon
    have hinput : (Connector.input (.ofNat 2) c.port).Among 2 .input d.inputs.length := hamong.port hon 2 .input
    refine ⟨.numbered inputId .output c.portNo, ?_, ?_⟩
    · rw [upstream, if_pos hon, (woven_solo _ _ b).wires, zero_add, Multiset.filter_add,
        filter_strand (g := Wire.target) (fun _ => rfl) hinput (by simp),
        filter_strand_off (g := Wire.target) outputId .input (fun _ => rfl) (by simp [outputId]), add_zero]
      rfl
    · rw [renumber_boundary (Or.inl rfl) (apply_boundary hd _) hon]
      exact (Connector.same_iff_norm.mp hsame).symm
  | false =>
    obtain ⟨i, hi⟩ := hc.resolve_left (by simp [hon])
    refine ⟨_, ?_, congrArg Connector.norm (place_eq_renumber hd hi _)⟩
    rw [upstream, if_neg (by simp [hon])]

theorem downstream_solo (hd : d.Consistent) (hc : d.Inside outputId c)
    (hamong : c.Among outputId .input d.outputs.length) :
    ∃ x, (solo d.inputs d.outputs b).downstream 2 (inserted (solo d.inputs d.outputs b) d) c = {x} ∧
      x.norm = (c.renumber (inserted (solo d.inputs d.outputs b) d).apply).norm := by
  cases hon : c.isOn outputId with
  | true =>
    obtain ⟨-, hsame⟩ := hamong.same_portNo hon
    have houtput : (Connector.output (.ofNat 2) c.port).Among 2 .output d.outputs.length := hamong.port hon 2 .output
    refine ⟨.numbered outputId .input c.portNo, ?_, ?_⟩
    · rw [downstream, if_pos hon, (woven_solo _ _ b).wires, zero_add, Multiset.filter_add,
        filter_strand (g := Wire.source) (fun _ => rfl) houtput (by simp),
        filter_strand_off (g := Wire.source) inputId .output (fun _ => rfl) (by simp [inputId]), zero_add]
      rfl
    · rw [renumber_boundary (Or.inr rfl) (apply_boundary hd _) hon]
      exact (Connector.same_iff_norm.mp hsame).symm
  | false =>
    obtain ⟨i, hi⟩ := hc.resolve_left (by simp [hon])
    refine ⟨_, ?_, congrArg Connector.norm (place_eq_renumber hd hi _)⟩
    rw [downstream, if_neg (by simp [hon])]

/-- A diagram comes out of its one box as it went in, with other numbers for its boxes. -/
theorem solo_spliced (hd : d.Consistent) (hdir : d.Directed) (h : ∀ w ∈ d.wires,
      w.source.Among inputId .output d.inputs.length ∧ w.target.Among outputId .input d.outputs.length) :
    ((solo d.inputs d.outputs b).spliced d 2).map Wire.norm = (d.wires : Multiset Wire).map fun w =>
      (w.renumber (inserted (solo d.inputs d.outputs b) d).apply).norm := by
  have hwoven := woven_solo d.inputs d.outputs b
  have hkey : 2 ∈ (solo d.inputs d.outputs b).boxes.keys := Table.mem_keys_of_get? (hwoven.get? (i := 0) rfl)
  have hloop : ¬ (solo d.inputs d.outputs b).Links 2 2 := by
    rintro ⟨w, hw, hs, ht⟩
    rcases ends_solo hw with ⟨h0, -⟩ | ⟨-, h1⟩
    · rw [Connector.isOn_eq_false h0 (by decide)] at hs
      cases hs
    · rw [Connector.isOn_eq_false h1 (by decide)] at ht
      cases ht
  rw [spliced_eq hloop hwoven.consistent hd hkey hdir, Multiset.filter_eq_nil.mpr, zero_add, Multiset.map_bind,
    ← Multiset.bind_singleton]
  · refine Multiset.bind_congr fun w hw => ?_
    have hw := Multiset.mem_coe.mp hw
    obtain ⟨hs, ht⟩ := inside_ends hd hdir hw
    obtain ⟨x, hx, hxn⟩ := upstream_solo (b := b) hd hs (h w hw).1
    obtain ⟨y, hy, hyn⟩ := downstream_solo (b := b) hd ht (h w hw).2
    rw [hx, hy, Multiset.singleton_bind, Multiset.map_singleton, Multiset.map_singleton, Wire.norm, hxn, hyn]
    rfl
  · intro w hw
    rcases ends_solo (Multiset.mem_coe.mp hw) with ⟨-, h2⟩ | ⟨h2, -⟩ <;> simp [h2]

end Emerged

end Diagram

end StringDiagram
