import StringDiagram.Proofs.Validity.Types

/-! # Types along spliced wires

A wire that is taken over runs from what ended at one port of the box to what started at another. If the
box has the types there that the wire of the inserted diagram has on its boundary, the host stays valid,
also in the wires that are made on the way and end at the box themselves: `splice_valid`. -/
namespace StringDiagram
open Diagram

namespace Diagram
variable {d d' : Diagram} {v : Nat} {ids : IdMap} {w : Wire} {ws new : List Wire}

theorem extend_cases (h : d.extend ws = (d', none)) : d.Rewires d' ∧ d'.wires.Perm (d.wires ++ ws) := by
  induction ws generalizing d with
  | nil =>
    cases h
    exact ⟨.refl _, by simp⟩
  | cons w ws ih =>
    rw [extend] at h
    cases hw : d.addWire w with
    | error e => simp [hw] at h
    | ok d₁ =>
      simp only [hw] at h
      obtain ⟨s, t, -, -, -, -, rfl⟩ := addWire_eq_ok.mp hw
      obtain ⟨hr, hp⟩ := ih h
      refine ⟨⟨hr.inputs, hr.outputs, hr.boxes, hr.next⟩, hp.trans ?_⟩
      have hlink := (wires_link d s t w).append_right ws
      rwa [List.append_assoc] at hlink

theorem splice_rewires (h : d.splice v ids ws = (d', none)) : d.Rewires d' := by
  induction ws generalizing d with
  | nil =>
    cases h
    exact .refl _
  | cons w ws ih =>
    rw [splice] at h
    cases hnew : d.splicedWires v ids w with
    | error e => simp [hnew] at h
    | ok new =>
      rcases hext : d.extend new with ⟨d₁, _ | e⟩
      · simp only [hnew, hext] at h
        exact (extend_cases hext).1.trans (ih h)
      · simp [hnew, hext] at h

/-- A wire that takes over `w` starts where a wire into the box started, or where `w` starts itself, and it
ends likewise. -/
theorem splicedWires_cases (hd : d.Consistent) (hv : v ∈ d.live)
    (h : d.splicedWires v ids w = .ok new) {x : Wire} (hx : x ∈ new) :
    ((w.source.isOn inputId = true ∧ ∃ y ∈ d.wires,
        y.target.same (.input (.ofNat v) w.source.port) = true ∧ x.source = y.source) ∨
      (w.source.isOn inputId = false ∧ ids.move w.source = .ok x.source)) ∧
    ((w.target.isOn outputId = true ∧ ∃ y ∈ d.wires,
        y.source.same (.output (.ofNat v) w.target.port) = true ∧ x.target = y.target) ∨
      (w.target.isOn outputId = false ∧ ids.move w.target = .ok x.target)) := by
  have hsrc : isInput w.source.box = w.source.isOn inputId := isInput_eq w.source.box
  have htgt : isOutput w.target.box = w.target.isOn outputId := isOutput_eq w.target.box
  have hinto := inWires_eq hd (c := .input (.ofNat v) w.source.port) (Value.boxId?_ofNat v) hv
  have hout := outWires_eq hd (c := .output (.ofNat v) w.target.port) (Value.boxId?_ofNat v) hv
  rw [splicedWires, hsrc, htgt] at h
  cases hs : w.source.isOn inputId with
  | true =>
    cases ht : w.target.isOn outputId with
    | true =>
      rw [hs, ht] at h
      obtain ⟨into, hi, h⟩ := bind_eq_ok.mp h
      obtain ⟨out, ho, h⟩ := bind_eq_ok.mp h
      rw [hinto, Except.ok.injEq] at hi
      rw [hout, Except.ok.injEq] at ho
      cases h
      obtain ⟨y, hy, hx⟩ := List.mem_flatMap.mp hx
      obtain ⟨z, hz, rfl⟩ := List.mem_map.mp hx
      rw [← hi] at hy
      rw [← ho] at hz
      obtain ⟨hy, hys⟩ := List.mem_filter.mp hy
      obtain ⟨hz, hzs⟩ := List.mem_filter.mp hz
      exact ⟨Or.inl ⟨rfl, y, hy, hys, rfl⟩, Or.inl ⟨rfl, z, hz, hzs, rfl⟩⟩
    | false =>
      rw [hs, ht] at h
      obtain ⟨c, hc, h⟩ := bind_eq_ok.mp h
      obtain ⟨into, hi, h⟩ := bind_eq_ok.mp h
      rw [hinto, Except.ok.injEq] at hi
      cases h
      obtain ⟨y, hy, rfl⟩ := List.mem_map.mp hx
      rw [← hi] at hy
      obtain ⟨hy, hys⟩ := List.mem_filter.mp hy
      exact ⟨Or.inl ⟨rfl, y, hy, hys, rfl⟩, Or.inr ⟨rfl, hc⟩⟩
  | false =>
    cases ht : w.target.isOn outputId with
    | true =>
      rw [hs, ht] at h
      obtain ⟨c, hc, h⟩ := bind_eq_ok.mp h
      obtain ⟨out, ho, h⟩ := bind_eq_ok.mp h
      rw [hout, Except.ok.injEq] at ho
      cases h
      obtain ⟨z, hz, rfl⟩ := List.mem_map.mp hx
      rw [← ho] at hz
      obtain ⟨hz, hzs⟩ := List.mem_filter.mp hz
      exact ⟨Or.inr ⟨rfl, hc⟩, Or.inl ⟨rfl, z, hz, hzs, rfl⟩⟩
    | false =>
      rw [hs, ht] at h
      obtain ⟨c, hc, h⟩ := bind_eq_ok.mp h
      obtain ⟨c', hc', h⟩ := bind_eq_ok.mp h
      cases h
      rw [List.mem_singleton.mp hx]
      exact ⟨Or.inr ⟨rfl, hc⟩, Or.inr ⟨rfl, hc'⟩⟩

end Diagram

namespace Store
variable {s : Store} {d d' : Diagram} {v : Nat} {ids : IdMap} {c : Connector} {a b : Value} {w : Wire}
  {ws new : List Wire}

theorem Types.rewires (h : s.Types d c a) (hr : d.Rewires d') : s.Types d' c a := by
  refine h.transfer (by simp [Connector.same]) (fun _ _ _ ht => ht) hr.inputs hr.outputs fun box hbox => ?_
  rwa [Diagram.box, hr.boxes]

theorem ValidWire.rewires (h : s.ValidWire d w) (hr : d.Rewires d') : s.ValidWire d' w := by
  refine h.transfer (fun _ _ _ ht => ht) hr.inputs hr.outputs fun c _ box hbox => ?_
  rwa [Diagram.box, hr.boxes]

/-- One end of a wire that is to be taken over has a type in the host as well: at the port of the box that
the boundary stands for, if the end is there, and else on the box that came in. -/
def Meets (s : Store) (d : Diagram) (ids : IdMap) (boundary : Nat) (port c : Connector) (a : Value) : Prop :=
  (c.isOn boundary = true → ∀ x, s.Types d port x → x.same a = true) ∧
    (c.isOn boundary = false → ∀ c', ids.move c = .ok c' → s.Types d c' a)

def Joins (s : Store) (d : Diagram) (v : Nat) (ids : IdMap) (w : Wire) : Prop :=
  ∃ a b, a.same b = true ∧ s.Meets d ids inputId (.input (.ofNat v) w.source.port) w.source a ∧
    s.Meets d ids outputId (.output (.ofNat v) w.target.port) w.target b

theorem Meets.rewires {boundary : Nat} {port : Connector} (h : s.Meets d ids boundary port c a)
    (hr : d.Rewires d') : s.Meets d' ids boundary port c a :=
  ⟨fun hc x hx => h.1 hc x (hx.rewires ⟨hr.inputs.symm, hr.outputs.symm, hr.boxes.symm, hr.next.symm⟩),
    fun hc c' hc' => (h.2 hc c' hc').rewires hr⟩

theorem Joins.rewires (h : s.Joins d v ids w) (hr : d.Rewires d') : s.Joins d' v ids w := by
  obtain ⟨a, b, hs, hsrc, htgt⟩ := h
  exact ⟨a, b, hs, hsrc.rewires hr, htgt.rewires hr⟩

/-- The wires that take over one wire are valid if those of the host are. -/
theorem splicedWires_valid (hd : d.Consistent) (hv : v ∈ d.live) (hvalid : ∀ y ∈ d.wires, s.ValidWire d y)
    (hw : s.Joins d v ids w) (h : d.splicedWires v ids w = .ok new) : ∀ x ∈ new, s.ValidWire d x := by
  intro x hx
  obtain ⟨a, b, hab, hsrc, htgt⟩ := hw
  obtain ⟨hstart, hend⟩ := splicedWires_cases hd hv h hx
  have hstart : ∃ a', s.Types d x.source a' ∧ a'.same a = true := by
    rcases hstart with ⟨hs, y, hy, hys, hxy⟩ | ⟨hs, hc⟩
    · obtain ⟨p, q, hp, hq, hpq⟩ := hvalid y hy
      exact ⟨p, hxy ▸ hp, Value.same_trans hpq (hsrc.1 hs q (hq.congr hys))⟩
    · exact ⟨a, hsrc.2 hs _ hc, Value.same_refl a⟩
  have hend : ∃ b', s.Types d x.target b' ∧ b.same b' = true := by
    rcases hend with ⟨ht, y, hy, hys, hxy⟩ | ⟨ht, hc⟩
    · obtain ⟨p, q, hp, hq, hpq⟩ := hvalid y hy
      exact ⟨q, hxy ▸ hq, Value.same_trans (Value.same_symm (htgt.1 ht p (hp.congr hys))) hpq⟩
    · exact ⟨b, htgt.2 ht _ hc, Value.same_refl b⟩
  obtain ⟨a', ha', hs⟩ := hstart
  obtain ⟨b', hb', ht⟩ := hend
  exact ⟨a', b', ha', hb', Value.same_trans hs (Value.same_trans hab ht)⟩

/-- What is spliced leaves a valid host valid. The induction is on the wires still to be taken over; those
that were taken over before are wires of the host by then. -/
theorem splice_valid (hd : d.Consistent) (hv : v ∈ d.live) (hvalid : ∀ y ∈ d.wires, s.ValidWire d y)
    (hws : ∀ w ∈ ws, s.Joins d v ids w) (h : d.splice v ids ws = (d', none)) :
    d.Rewires d' ∧ ∀ y ∈ d'.wires, s.ValidWire d' y := by
  induction ws generalizing d with
  | nil =>
    cases h
    exact ⟨.refl _, hvalid⟩
  | cons w ws ih =>
    rw [splice] at h
    cases hnew : d.splicedWires v ids w with
    | error e => simp [hnew] at h
    | ok new =>
      rcases hext : d.extend new with ⟨d₁, _ | e⟩
      · simp only [hnew, hext] at h
        obtain ⟨hr, hp⟩ := extend_cases hext
        have hd₁ : d₁.Consistent := by
          have hcons := hd.extend new
          rwa [hext] at hcons
        have hvalid₁ : ∀ y ∈ d₁.wires, s.ValidWire d₁ y := by
          intro y hy
          rcases List.mem_append.mp (hp.mem_iff.mp hy) with hy | hy
          · exact (hvalid y hy).rewires hr
          · exact (splicedWires_valid hd hv hvalid (hws w List.mem_cons_self) hnew y hy).rewires hr
        obtain ⟨hr', hvalid'⟩ := ih hd₁ (hr.live_eq ▸ hv) hvalid₁
          (fun x hx => (hws x (List.mem_cons_of_mem w hx)).rewires hr) h
        exact ⟨hr.trans hr', hvalid'⟩
      · simp [hnew, hext] at h

end Store

end StringDiagram
