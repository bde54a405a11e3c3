import StringDiagram.Proofs.Category.Likeness
import StringDiagram.Proofs.Category.Scaffold

/-! # Diagrams put together

The scaffold of composition makes the plans of two diagrams follow each other, and the scaffold of the
product puts them side by side, as the operations on blueprints say: `Filled.compose_plan` and
`Filled.otimes_plan`. -/
namespace StringDiagram
open Diagram Network

namespace Diagram

/-- What a diagram is apart from the identifiers of its boxes. -/
def blueprint (d : Diagram) : Blueprint := ⟨d.inputs, d.outputs, d.boxes.values, d.plan⟩

section Places
variable {d : Diagram}

theorem tip_boundary {b : Nat} {c : Connector} (hb : b = inputId ∨ b = outputId) (hc : c.isOn b = true) :
    c.tip = .port c.port.boxId? := by
  rcases hb with rfl | rfl
  · exact tip_of_isOn (Or.inl hc)
  · exact tip_of_isOn (Or.inr hc)

theorem Inside.below {b : Nat} {c : Connector} (hd : d.Consistent) (hb : b = inputId ∨ b = outputId)
    (hc : d.Inside b c) : (c.tip.move fun n => d.boxes.keys.idxOf n).below d.boxes.length = true := by
  rcases hc with hon | ⟨i, u, hu, hc⟩
  · rw [tip_boundary hb hon]
    rfl
  · have hmem := List.mem_of_getElem? hu
    rw [Connector.tip_box hc (hd.two_le hmem), Tip.move, Tip.below, decide_eq_true_iff, ← Table.length_keys]
    exact List.idxOf_lt_length_iff.mpr hmem

theorem sound_blueprint (hd : d.Consistent) (hdir : d.Directed) : d.blueprint.Sound := by
  intro a ha
  obtain ⟨b, hb, rfl⟩ := Plan.mem_move.mp (show a ∈ d.plan from ha)
  obtain ⟨w, hw, rfl⟩ := mem_tips.mp hb
  obtain ⟨hs, ht⟩ := inside_ends hd hdir hw
  have hlen : d.blueprint.parts.length = d.boxes.length := by simp [blueprint, Table.values]
  rw [hlen]
  exact ⟨hs.below hd (Or.inl rfl), ht.below hd (Or.inr rfl)⟩

theorem Inside.fits {b m : Nat} {c : Connector} (hd : d.Consistent) (hb : b = inputId ∨ b = outputId)
    (hc : d.Inside b c) (ho : c.isOn b = true → ∃ i < m, c.port.boxId? = some i) :
    (c.tip.move fun n => d.boxes.keys.idxOf n).fits m = true := by
  rw [Tip.fits_move]
  rcases hc with hon | ⟨i, u, hu, hc⟩
  · obtain ⟨i, hi, hport⟩ := ho hon
    rw [tip_boundary hb hon, hport]
    simpa [Tip.fits] using hi
  · rw [Connector.tip_box hc (hd.two_le (List.mem_of_getElem? hu))]
    rfl

/-- No wire is cut off. -/
theorem tight_blueprint (hd : d.Consistent) (hdir : d.Directed) (ho : d.Outward) : d.blueprint.Tight := by
  intro a ha
  obtain ⟨b, hb, rfl⟩ := Plan.mem_move.mp (show a ∈ d.plan from ha)
  obtain ⟨w, hw, rfl⟩ := mem_tips.mp hb
  obtain ⟨hs, ht⟩ := inside_ends hd hdir hw
  exact ⟨hs.fits hd (Or.inl rfl) fun hon => ((ho w hw).1 hon).2,
    ht.fits hd (Or.inr rfl) fun hon => ((ho w hw).2 hon).2⟩

end Places

def straight (as : List Value) : Diagram := (new as as).connect inputId 0 outputId 0 as.length

def crossed (as bs : List Value) : Diagram :=
  ((new (as ++ bs) (bs ++ as)).connect inputId 0 outputId bs.length as.length).connect
    inputId as.length outputId 0 bs.length

def inSequence (dom codom : List Value) (p q : Value) (middle : Nat) : Diagram :=
  (((((new dom codom).addBox p).addBox q).connect inputId 0 2 0 dom.length).connect 2 0 3 0 middle).connect
    3 0 outputId 0 codom.length

def sideBySide (dom dom' codom codom' : List Value) (p q : Value) : Diagram :=
  ((((((new (dom ++ dom') (codom ++ codom')).addBox p).addBox q).connect inputId 0 2 0 dom.length).connect
    inputId dom.length 3 0 dom'.length).connect 2 0 outputId 0 codom.length).connect
    3 0 outputId codom.length codom'.length

end Diagram

namespace Diagram

section Connect
variable {d : Diagram} (hd : d.Consistent) {a b : Nat} (ha : a ∈ d.live) (hb : b ∈ d.live)

include hd ha hb

theorem mem_connect {i j n : Nat} {w : Wire} (hw : w ∈ (d.connect a i b j n).wires) :
    w ∈ d.wires ∨ ∃ k < n, w = .ofPorts a (i + k) b (j + k) := by
  obtain ⟨-, -, hsum⟩ := connect_spec hd ha hb i j n
  rw [← Multiset.mem_coe, hsum, Multiset.mem_add, mem_strand] at hw
  exact hw.imp Multiset.mem_coe.mp fun ⟨k, hk, hkw⟩ => ⟨k, hk, hkw.symm⟩

theorem directed_connect (hdir : d.Directed) (ha' : a ≠ outputId) (hb' : b ≠ inputId) (i j n : Nat) :
    (d.connect a i b j n).Directed := by
  intro w hw
  rcases mem_connect hd ha hb hw with hold | ⟨k, -, rfl⟩
  · exact hdir w hold
  · simp [Wire.ofPorts, ha', hb']

/-- Wires at ports that the boundary has. -/
theorem outward_connect (ho : d.Outward) {i j n : Nat} (hi : a = inputId → i + n ≤ d.inputs.length)
    (hj : b = outputId → j + n ≤ d.outputs.length) : (d.connect a i b j n).Outward := by
  obtain ⟨-, hr, -⟩ := connect_spec hd ha hb i j n
  rw [Outward, hr.inputs, hr.outputs]
  intro w hw
  rcases mem_connect hd ha hb hw with hold | ⟨k, hk, rfl⟩
  · exact ho w hold
  · refine ⟨fun hon => ⟨rfl, i + k, ?_, Value.boxId?_ofNat _⟩,
      fun hon => ⟨rfl, j + k, ?_, Value.boxId?_ofNat _⟩⟩
    · have hle := hi (by simpa [Wire.ofPorts] using hon)
      omega
    · have hle := hj (by simpa [Wire.ofPorts] using hon)
      omega

end Connect

end Diagram

section Bare

structure Bare (P : Plan) (d : Diagram) : Prop where
  consistent : d.Consistent
  boxes : d.boxes = []
  tips : d.tips = P
  directed : d.Directed
  outward : d.Outward

variable {P : Plan} {d : Diagram}

theorem bare_new (inputs outputs : List Value) : Bare 0 (new inputs outputs) where
  consistent := consistent_new inputs outputs
  boxes := rfl
  tips := rfl
  directed := by simp [Diagram.Directed, new, wires, Table.values]
  outward := by simp [Outward, new, wires, Table.values]

theorem Bare.connect (h : Bare P d) {i j n : Nat} (hi : i + n ≤ d.inputs.length)
    (hj : j + n ≤ d.outputs.length) :
    Bare (P + (Multiset.range n).map fun k => (.port (some (i + k)), .port (some (j + k))))
      (d.connect inputId i outputId j n) ∧ d.Rewires (d.connect inputId i outputId j n) := by
  have h0 : inputId ∈ d.live := by simp [live]
  have h1 : outputId ∈ d.live := by simp [live]
  obtain ⟨hc, hr, hw⟩ := connect_spec h.consistent h0 h1 i j n
  refine ⟨⟨hc, hr.boxes.trans h.boxes, ?_, directed_connect h.consistent h0 h1 h.directed (by decide)
    (by decide) i j n, outward_connect h.consistent h0 h1 h.outward (fun _ => hi) fun _ => hj⟩, hr⟩
  rw [Diagram.tips, hw, Multiset.map_add, ← Diagram.tips, h.tips, tips_strand]
  simp only [tip_output, tip_input]
  rfl

theorem Bare.blueprint_eq {φ : Nat → Nat} (h : Bare (Plan.wiring φ d.inputs.length) d) :
    d.blueprint = .ports d.inputs d.outputs φ := by
  rw [Diagram.blueprint, h.boxes, Diagram.plan, h.tips, Plan.move_wiring]
  rfl

theorem bare_straight (as : List Value) : Bare (Plan.wiring id as.length) (straight as) ∧
    (straight as).inputs = as ∧ (straight as).outputs = as := by
  obtain ⟨h, hr⟩ := (bare_new as as).connect (i := 0) (j := 0) (n := as.length) (Nat.zero_add _).le
    (Nat.zero_add _).le
  refine ⟨?_, hr.inputs, hr.outputs⟩
  simp only [zero_add] at h
  exact h

theorem bare_crossed (as bs : List Value) :
    Bare (Plan.wiring (Plan.crossing as.length bs.length) (as.length + bs.length)) (crossed as bs) ∧
      (crossed as bs).inputs = as ++ bs ∧ (crossed as bs).outputs = bs ++ as := by
  obtain ⟨h₁, hr₁⟩ := (bare_new (as ++ bs) (bs ++ as)).connect (i := 0) (j := bs.length) (n := as.length)
    (by simp [new]) (by simp [new])
  obtain ⟨h₂, hr₂⟩ := h₁.connect (i := as.length) (j := 0) (n := bs.length)
    (by rw [hr₁.inputs]; simp [new]) (by rw [hr₁.outputs]; simp [new])
  have hr := hr₁.trans hr₂
  refine ⟨?_, hr.inputs, hr.outputs⟩
  have hplan : 0 + (Multiset.range as.length).map
        (fun k => (Tip.port (some (0 + k)), Tip.port (some (bs.length + k)))) +
      (Multiset.range bs.length).map (fun k => (Tip.port (some (as.length + k)), Tip.port (some (0 + k)))) =
      Plan.wiring (Plan.crossing as.length bs.length) (as.length + bs.length) := by
    rw [Plan.wiring, Multiset.range_add, Multiset.map_add, Multiset.map_map, zero_add]
    congr 1
    · refine Multiset.map_congr rfl fun k hk => ?_
      rw [Plan.crossing, if_pos (Multiset.mem_range.mp hk), zero_add, Nat.add_comm]
    · refine Multiset.map_congr rfl fun k _ => ?_
      simp [Plan.crossing]
  rw [← hplan]
  exact h₂

end Bare

section Scaffolds
variable {dom dom' codom codom' : List Value} {p q : Value} {P : Plan} {d : Diagram}

theorem scaffold_new (inputs outputs : List Value) (p q : Value) :
    Scaffold p q 0 (((new inputs outputs).addBox p).addBox q) where
  consistent := ((consistent_new inputs outputs).addBox p).addBox q
  boxes := rfl
  next := rfl
  tips := rfl
  wired := by simp [addBox, new, wires, Table.values]
  directed := by simp [Diagram.Directed, addBox, new, wires, Table.values]
  outward := by simp [Outward, addBox, new, wires, Table.values]

theorem Scaffold.mem_live (h : Scaffold p q P d) {n : Nat} (hn : n < 4) : n ∈ d.live := by
  rw [live, h.boxes]
  simp only [inputId, outputId, Table.keys_cons, Table.keys_nil, List.mem_cons]
  omega

/-- More wires between the boundary and the boxes. -/
theorem Scaffold.connect (h : Scaffold p q P d) {a b : Nat} (ha : a < 4) (ha' : a ≠ outputId) (hb : b < 4)
    (hb' : b ≠ inputId) {i j n : Nat} (hi : a = inputId → i + n ≤ d.inputs.length)
    (hj : b = outputId → j + n ≤ d.outputs.length) :
    Scaffold p q (P + (strand a i b j n).map Wire.tips) (d.connect a i b j n) ∧
      d.Rewires (d.connect a i b j n) := by
  have hla := h.mem_live ha
  have hlb := h.mem_live hb
  obtain ⟨hc, hr, hw⟩ := connect_spec h.consistent hla hlb i j n
  refine ⟨⟨hc, hr.boxes.trans h.boxes, hr.next.trans h.next, ?_, fun w hmem => ?_,
    directed_connect h.consistent hla hlb h.directed ha' hb' i j n,
    outward_connect h.consistent hla hlb h.outward hi hj⟩, hr⟩
  · rw [Diagram.tips, hw, Multiset.map_add, ← Diagram.tips, h.tips]
  · rcases mem_connect h.consistent hla hlb hmem with hold | ⟨k, -, rfl⟩
    · exact h.wired w hold
    · exact ⟨a, _, b, _, rfl⟩

theorem scaffold_inSequence (dom codom : List Value) (p q : Value) (middle : Nat) :
    Scaffold p q (Plan.chain 2 3 dom.length middle codom.length) (inSequence dom codom p q middle) ∧
      (inSequence dom codom p q middle).inputs = dom ∧ (inSequence dom codom p q middle).outputs = codom := by
  have h₀ := scaffold_new dom codom p q
  obtain ⟨h₁, hr₁⟩ := h₀.connect (a := inputId) (b := 2) (by decide) (by decide) (by decide) (by decide)
    (i := 0) (j := 0) (n := dom.length) (fun _ => (Nat.zero_add _).le) (by simp [outputId])
  obtain ⟨h₂, hr₂⟩ := h₁.connect (a := 2) (b := 3) (by decide) (by decide) (by decide) (by decide)
    (i := 0) (j := 0) (n := middle) (by simp [inputId]) (by simp [outputId])
  obtain ⟨h₃, hr₃⟩ := h₂.connect (a := 3) (b := outputId) (by decide) (by decide) (by decide) (by decide)
    (i := 0) (j := 0) (n := codom.length) (by simp [inputId]) fun _ => by
      rw [hr₂.outputs, hr₁.outputs]
      exact (Nat.zero_add _).le
  have hr := (hr₁.trans hr₂).trans hr₃
  refine ⟨?_, hr.inputs, hr.outputs⟩
  have hplan : 0 + (strand inputId 0 2 0 dom.length).map Wire.tips + (strand 2 0 3 0 middle).map Wire.tips +
      (strand 3 0 outputId 0 codom.length).map Wire.tips =
        Plan.chain 2 3 dom.length middle codom.length := by
    rw [zero_add, tips_strand, tips_strand, tips_strand]
    simp only [tip_output, tip_input, Plan.chain, Plan.wiring, Multiset.map_map]
    simp [Function.comp_def, Tip.outward, inputId, outputId]
  rw [← hplan]
  exact h₃

theorem scaffold_sideBySide (dom dom' codom codom' : List Value) (p q : Value) :
    Scaffold p q (Plan.pair 2 3 dom.length dom'.length codom.length codom'.length)
        (sideBySide dom dom' codom codom' p q) ∧
      (sideBySide dom dom' codom codom' p q).inputs = dom ++ dom' ∧
      (sideBySide dom dom' codom codom' p q).outputs = codom ++ codom' := by
  have h₀ := scaffold_new (dom ++ dom') (codom ++ codom') p q
  obtain ⟨h₁, hr₁⟩ := h₀.connect (a := inputId) (b := 2) (by decide) (by decide) (by decide) (by decide)
    (i := 0) (j := 0) (n := dom.length) (fun _ => by simp [new, addBox]) (by simp [outputId])
  obtain ⟨h₂, hr₂⟩ := h₁.connect (a := inputId) (b := 3) (by decide) (by decide) (by decide) (by decide)
    (i := dom.length) (j := 0) (n := dom'.length) (fun _ => by rw [hr₁.inputs]; simp [new, addBox])
    (by simp [outputId])
  obtain ⟨h₃, hr₃⟩ := h₂.connect (a := 2) (b := outputId) (by decide) (by decide) (by decide) (by decide)
    (i := 0) (j := 0) (n := codom.length) (by simp [inputId]) fun _ => by
      rw [hr₂.outputs, hr₁.outputs]
      simp [new, addBox]
  obtain ⟨h₄, hr₄⟩ := h₃.connect (a := 3) (b := outputId) (by decide) (by decide) (by decide) (by decide)
    (i := 0) (j := codom.length) (n := codom'.length) (by simp [inputId]) fun _ => by
      rw [hr₃.outputs, hr₂.outputs, hr₁.outputs]
      simp [new, addBox]
  have hr := ((hr₁.trans hr₂).trans hr₃).trans hr₄
  refine ⟨?_, hr.inputs, hr.outputs⟩
  have hplan : 0 + (strand inputId 0 2 0 dom.length).map Wire.tips +
      (strand inputId dom.length 3 0 dom'.length).map Wire.tips +
      (strand 2 0 outputId 0 codom.length).map Wire.tips +
      (strand 3 0 outputId codom.length codom'.length).map Wire.tips =
        Plan.pair 2 3 dom.length dom'.length codom.length codom'.length := by
    rw [zero_add, tips_strand, tips_strand, tips_strand, tips_strand]
    simp only [tip_output, tip_input, Plan.pair, Plan.wiring, Plan.turn, Multiset.map_map]
    simp [Function.comp_def, Tip.outward, inputId, outputId, Nat.add_comm]
  rw [← hplan]
  exact h₄

end Scaffolds

section Filled
variable {P : Plan} {d f g d₂ : Diagram}

theorem Plan.away_move {τ : Nat → Nat} {v : Nat} (h : ∀ i, τ i ≠ v) (P : Plan) : (P.move τ).Away v := by
  have htip : ∀ x : Tip, (x.move τ).isAt v = false := by
    intro x
    cases x with
    | port p => rfl
    | pin i k p => exact decide_eq_false (h i)
  intro a ha
  obtain ⟨b, -, rfl⟩ := Plan.mem_move.mp ha
  exact ⟨htip b.1, htip b.2⟩

theorem idxOf_range' {n N i : Nat} (hi : i < N) : (List.range' n N).idxOf (i + n) = i := by
  have hlt : i < (List.range' n N).length := by rwa [List.length_range']
  have hget : (List.range' n N)[i] = i + n := by simp [Nat.add_comm]
  rw [← hget]
  exact (List.nodup_range' : (List.range' n N).Nodup).idxOf_getElem i hlt

/-- The places of the boxes in the two diagrams that came in. -/
theorem Filled.places (h : Filled P d f g d₂) {Q R : Plan} (hQ : Q.Below f.boxes.length)
    (hR : R.Below g.boxes.length) :
    ((Q.move (· + 4)).move fun n => d₂.boxes.keys.idxOf n) = Q ∧
      ((R.move (· + (4 + f.boxes.length))).move fun n => d₂.boxes.keys.idxOf n) =
        R.move (· + f.boxes.length) := by
  rw [Plan.move_move, Plan.move_move, h.keys]
  constructor
  · refine (Plan.move_congr hQ fun i hi => ?_).trans (Plan.move_id Q)
    exact idxOf_range' (Nat.lt_add_right _ hi)
  · refine Plan.move_congr hR fun i hi => ?_
    have hi' : i + (4 + f.boxes.length) = i + f.boxes.length + 4 := by omega
    simp only [Function.comp_apply, hi']
    exact idxOf_range' (by omega)

theorem Filled.compose_plan (h : Filled (Plan.chain 2 3 f.inputs.length f.outputs.length g.outputs.length)
    d f g d₂) (hf : f.Consistent) (hg : g.Consistent) (hfd : f.Directed) (hgd : g.Directed) :
    d₂.plan = (f.blueprint.compose g.blueprint).plan := by
  have hQ : Plan.Away 3 (f.plan.move (· + 4)) := Plan.away_move (fun i => by omega) f.plan
  have hlen : f.blueprint.parts.length = f.boxes.length := List.length_map _
  have hlen' : g.blueprint.parts.length = g.boxes.length := List.length_map _
  have hbelow : f.blueprint.tight.Below f.boxes.length := hlen ▸ (sound_blueprint hf hfd).tight
  have hbelow' : (g.plan.clip f.outputs.length g.outputs.length).Below g.boxes.length :=
    hlen' ▸ Plan.Below.clip (sound_blueprint hg hgd) _ _
  obtain ⟨hfirst, hsecond⟩ := h.places hbelow hbelow'
  rw [plan, h.tips, Plan.graft_chain (by decide) hQ, Plan.clip_move, Plan.clip_move, ← Plan.serial_move,
    hsecond]
  change Plan.serial ((f.blueprint.tight.move _).move _) _ = _
  rw [hfirst, Blueprint.compose, hlen]
  rfl

theorem Filled.otimes_plan (h : Filled (Plan.pair 2 3 f.inputs.length g.inputs.length f.outputs.length
    g.outputs.length) d f g d₂) (hf : f.Consistent) (hg : g.Consistent) (hfd : f.Directed) (hgd : g.Directed) :
    d₂.plan = (f.blueprint.otimes g.blueprint).plan := by
  have hQ : Plan.Away 3 (f.plan.move (· + 4)) := Plan.away_move (fun i => by omega) f.plan
  have hlen : f.blueprint.parts.length = f.boxes.length := List.length_map _
  have hlen' : g.blueprint.parts.length = g.boxes.length := List.length_map _
  have hbelow : f.blueprint.tight.Below f.boxes.length := hlen ▸ (sound_blueprint hf hfd).tight
  have hbelow' : g.blueprint.tight.Below g.boxes.length := hlen' ▸ (sound_blueprint hg hgd).tight
  obtain ⟨hfirst, hsecond⟩ := h.places hbelow hbelow'
  rw [plan, h.tips, Plan.graft_pair (by decide) hQ, Plan.clip_move, Plan.clip_move, ← Plan.beside_move]
  change Plan.beside _ _ ((f.blueprint.tight.move _).move _) ((g.blueprint.tight.move _).move _) = _
  rw [hfirst, hsecond, Blueprint.otimes, hlen]
  rfl

end Filled

end StringDiagram
