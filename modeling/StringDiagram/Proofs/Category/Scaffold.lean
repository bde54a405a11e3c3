import StringDiagram.Category
import StringDiagram.Proofs.Category.Tips
import StringDiagram.Proofs.Substitution.Within

/-! # Scaffolds

A scaffold holds two boxes and wires between numbered ports. After both boxes were replaced by diagrams,
its plan is theirs, grafted into it one after the other, and the boundary is as it was: `Scaffold.tips`
and `Scaffold.outward`. -/
namespace StringDiagram
open Diagram Network

namespace Diagram
variable {d e : Diagram} {v : Nat}

def strand (a i b j n : Nat) : Multiset Wire := (Multiset.range n).map fun k => .ofPorts a (i + k) b (j + k)

theorem connect_spec (hd : d.Consistent) {a b : Nat} (ha : a ∈ d.live) (hb : b ∈ d.live) (i j n : Nat) :
    (d.connect a i b j n).Consistent ∧ d.Rewires (d.connect a i b j n) ∧
      ((d.connect a i b j n).wires : Multiset Wire) = d.wires + strand a i b j n := by
  induction n with
  | zero => exact ⟨hd, .refl d, by simp [connect, strand]⟩
  | succ n ih =>
    obtain ⟨hc, hr, hw⟩ := ih
    have hstep : d.connect a i b j (n + 1) =
        (d.connect a i b j n).link a b (.ofPorts a (i + n) b (j + n)) := by
      simp [connect, List.range_succ]
    have hlive := hr.live_eq
    rw [hstep]
    refine ⟨hc.link (hlive ▸ ha) (hlive ▸ hb) ⟨Value.boxId?_ofNat a, Value.boxId?_ofNat b⟩,
      hr.trans ⟨rfl, rfl, rfl, rfl⟩, ?_⟩
    rw [Multiset.coe_eq_coe.mpr (wires_link _ _ _ _), ← Multiset.coe_add, hw, strand, strand,
      Multiset.range_succ, Multiset.map_cons, Multiset.coe_singleton, ← Multiset.singleton_add]
    abel

theorem tip_output (a i : Nat) : (Connector.output (.ofNat a) (.ofNat i)).tip =
    if a ≤ outputId then .port (some i) else .pin a (.side .output) (.ofNat i) := by
  simp only [Connector.tip, Connector.output, Value.boxId?_ofNat]
  rfl

theorem tip_input (b j : Nat) : (Connector.input (.ofNat b) (.ofNat j)).tip =
    if b ≤ outputId then .port (some j) else .pin b (.side .input) (.ofNat j) := by
  simp only [Connector.tip, Connector.input, Value.boxId?_ofNat]
  rfl

theorem tips_strand (a i b j n : Nat) : (strand a i b j n).map Wire.tips =
    (Multiset.range n).map fun k => ((Connector.output (.ofNat a) (.ofNat (i + k))).tip,
      (Connector.input (.ofNat b) (.ofNat (j + k))).tip) := by
  rw [strand, Multiset.map_map]
  rfl

theorem mem_strand {a i b j n : Nat} {w : Wire} :
    w ∈ strand a i b j n ↔ ∃ k < n, .ofPorts a (i + k) b (j + k) = w := by
  simp [strand]

/-- The boundary is left at outputs and entered at inputs, and only at ports that there are. -/
def Outward (d : Diagram) : Prop := ∀ w ∈ d.wires,
  (w.source.isOn inputId = true → w.source.kind = .side .output ∧
    ∃ i < d.inputs.length, w.source.port.boxId? = some i) ∧
  (w.target.isOn outputId = true → w.target.kind = .side .input ∧
    ∃ i < d.outputs.length, w.target.port.boxId? = some i)

theorem loopless_tips (hv : 2 ≤ v) (h : Plan.Loopless v d.tips) : ¬ d.Links v v := by
  rintro ⟨w, hw, hs, ht⟩
  refine h _ (mem_tips.mpr ⟨w, hw, rfl⟩) ?_
  simp only [Wire.tips, Connector.isAt_tip hv]
  exact ⟨hs, ht⟩

end Diagram

structure Scaffold (p q : Value) (P : Plan) (d : Diagram) : Prop where
  consistent : d.Consistent
  boxes : d.boxes = [(2, p), (3, q)]
  next : d.next = 4
  tips : d.tips = P
  wired : ∀ w ∈ d.wires, ∃ a i b j, w = .ofPorts a i b j
  directed : d.Directed
  outward : d.Outward

namespace Scaffold
variable {p q : Value} {P : Plan} {d : Diagram}

theorem numbered (h : Scaffold p q P d) (v : Nat) : d.Numbered v := by
  intro w hw
  obtain ⟨a, i, b, j, rfl⟩ := h.wired w hw
  constructor
  · intro hs
    obtain rfl : a = v := by simpa [Wire.ofPorts] using hs
    exact ⟨i, rfl⟩
  · intro ht
    obtain rfl : b = v := by simpa [Wire.ofPorts] using ht
    exact ⟨j, rfl⟩

theorem mem_keys (h : Scaffold p q P d) : 2 ∈ d.boxes.keys ∧ 3 ∈ d.boxes.keys := by
  rw [h.boxes]
  exact ⟨by simp, by simp⟩

end Scaffold

section Ends
variable {s s' : Store} {host : Ref} {v : Nat} {d e d' : Diagram}
variable (h : Inlined s s' host v d e d') (hd : d.Consistent) (he : e.Consistent) (hdir : e.Directed)
  (hv : v ∈ d.boxes.keys) (hl : Plan.Loopless v d.tips)

include h hd he hdir hv hl

/-- What holds of the ends of the wires of the host holds of the ends on its old boxes. -/
theorem Inlined.forall_ends {p q : Connector → Prop} (hpq : ∀ w ∈ d.wires, p w.source ∧ q w.target)
    (hnew : ∀ c : Connector, (∀ n < d.next, c.isOn n = false) → p c ∧ q c) :
    ∀ w ∈ d'.wires, p w.source ∧ q w.target := by
  intro w hw
  have hloop := loopless_tips (hd.two_le hv) hl
  rw [← Multiset.mem_coe, h.wires] at hw
  constructor
  · rcases source_of_mem_spliced hloop hd he hv hdir hw with ⟨z, hz, hzw⟩ | hfresh
    · exact hzw ▸ (hpq z hz).1
    · exact (hnew _ hfresh).1
  · rcases target_of_mem_spliced hloop hd he hv hdir hw with ⟨z, hz, hzw⟩ | hfresh
    · exact hzw ▸ (hpq z hz).2
    · exact (hnew _ hfresh).2

theorem Inlined.outward (ho : d.Outward) : d'.Outward := by
  rw [Outward, h.inputs, h.outputs]
  have h2 := hd.two_le_next
  have h0 : inputId < d.next := by rw [inputId]; omega
  have h1 : outputId < d.next := by rw [outputId]; omega
  refine h.forall_ends hd he hdir hv hl
    (p := fun c => c.isOn inputId = true → c.kind = .side .output ∧
      ∃ i < d.inputs.length, c.port.boxId? = some i)
    (q := fun c => c.isOn outputId = true → c.kind = .side .input ∧
      ∃ i < d.outputs.length, c.port.boxId? = some i) ho fun c hc => ⟨fun hon => ?_, fun hon => ?_⟩
  · simp [hc _ h0] at hon
  · simp [hc _ h1] at hon

theorem Inlined.numbered {u : Nat} (hn : d.Numbered u) (hu : u < d.next) : d'.Numbered u := by
  refine h.forall_ends hd he hdir hv hl
    (p := fun c => c.isOn u = true → ∃ i, c = .output (.ofNat u) (.ofNat i))
    (q := fun c => c.isOn u = true → ∃ i, c = .input (.ofNat u) (.ofNat i)) hn
    fun c hc => ⟨fun hon => ?_, fun hon => ?_⟩
  · simp [hc u hu] at hon
  · simp [hc u hu] at hon

theorem Inlined.tips_eq (hn : d.Numbered v) :
    d'.tips = Plan.graft v d.tips (e.plan.move (· + d.next)) := by
  rw [Diagram.tips, h.wires, spliced_tips hd he hv hn hdir (loopless_tips (hd.two_le hv) hl)]

end Ends

structure Filled (P : Plan) (d f g d₂ : Diagram) : Prop where
  consistent : d₂.Consistent
  tips : d₂.tips = Plan.graft 3 (Plan.graft 2 P (f.plan.move (· + 4))) (g.plan.move (· + (4 + f.boxes.length)))
  keys : d₂.boxes.keys = List.range' 4 (f.boxes.length + g.boxes.length)
  inputs : d₂.inputs = d.inputs
  outputs : d₂.outputs = d.outputs
  directed : d₂.Directed
  outward : d₂.Outward

theorem Scaffold.filled {s s₁ s₂ : Store} {host : Ref} {d f g d₁ d₂ : Diagram} {p q : Value} {P : Plan}
    (hs : Scaffold p q P d) (h₁ : Inlined s s₁ host 2 d f d₁) (h₂ : Inlined s₁ s₂ host 3 d₁ g d₂)
    (hf : f.Consistent) (hg : g.Consistent) (hfd : f.Directed) (hgd : g.Directed)
    (hl : Plan.Loopless 2 P) (hl' : Plan.Loopless 3 (Plan.graft 2 P (f.plan.move (· + 4)))) :
    Filled P d f g d₂ := by
  have hl : Plan.Loopless 2 d.tips := hs.tips ▸ hl
  have hd := hs.consistent
  have h2 := hs.mem_keys.1
  have hkeys : d₁.boxes.keys = 3 :: List.range' 4 f.boxes.length := by
    rw [h₁.keys, hs.boxes, hs.next]
    rfl
  have hnext : d₁.next = 4 + f.boxes.length := by rw [h₁.next, hs.next]
  have h3 : 3 ∈ d₁.boxes.keys := by
    rw [hkeys]
    exact List.mem_cons_self
  have htips : d₁.tips = Plan.graft 2 P (f.plan.move (· + 4)) := by
    rw [h₁.tips_eq hd hf hfd h2 hl (hs.numbered 2), hs.tips, hs.next]
  have hl' : Plan.Loopless 3 d₁.tips := htips ▸ hl'
  have hn : d₁.Numbered 3 := h₁.numbered hd hf hfd h2 hl (hs.numbered 3) (by rw [hs.next]; decide)
  have hout : d₁.Outward := h₁.outward hd hf hfd h2 hl hs.outward
  have hdir : d₁.Directed := h₁.directed hd hf hs.directed hfd
  refine ⟨h₂.consistent, ?_, ?_, h₂.inputs.trans h₁.inputs, h₂.outputs.trans h₁.outputs,
    h₂.directed h₁.consistent hg hdir hgd, h₂.outward h₁.consistent hg hgd h3 hl' hout⟩
  · rw [h₂.tips_eq h₁.consistent hg hgd h3 hl' hn, htips, hnext]
  · have hrest : (List.range' 4 f.boxes.length).filter (fun n => !decide (n = 3)) =
        List.range' 4 f.boxes.length := by
      refine List.filter_eq_self.mpr fun n hn => ?_
      have hge := (List.mem_range'_1.mp hn).1
      have hne : n ≠ 3 := by omega
      simp [hne]
    rw [h₂.keys, hkeys, hnext, List.filter_cons, hrest]
    simp [List.range'_append_1]

end StringDiagram
