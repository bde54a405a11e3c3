import StringDiagram.Proofs.Diagram.Renamed
import StringDiagram.Proofs.Substitution.Inward

/-! # Substitution in a copy

A copy of a diagram has the same wires, if these refer to nothing that is copied along, and copies of the same
boxes. After a substitution it can itself be put into a host, and what it holds comes in as copies:
`Inlined.copiedAt_within` and `Inlined.heldAt_within`. -/
namespace StringDiagram
open Diagram Network

namespace Diagram

section Rename
variable {e : Diagram} (f : Ref → Ref) (h : ∀ w ∈ e.wires, w.toValue.refs = [])

include h

/-- Wires that refer to nothing are the same in a copy. -/
theorem wires_rename_eq_self : (e.rename f).wires = e.wires := by
  rw [wires_rename]
  exact (List.map_congr_left fun w hw => Wire.rename_eq_self f (h w hw)).trans (List.map_id _)

theorem spliced_rename (k : Diagram) (u : Nat) : (e.rename f).spliced k u = e.spliced k u := by
  have hids : inserted (e.rename f) k = inserted e k := rfl
  rw [spliced, walks, wires_rename_eq_self f h, hids, ← walks, ← spliced]

end Rename

end Diagram

/-- Substitution makes no wires the wrong way. -/
theorem Inlined.directed {s s' : Store} {host : Ref} {v : Nat} {d e d' : Diagram}
    (h : Inlined s s' host v d e d') (hcd : d.Consistent) (hce : e.Consistent) (hd : d.Directed)
    (he : e.Directed) : d'.Directed := by
  intro w hw
  rw [← Multiset.mem_coe, h.wires, spliced_eq_outcome, mem_outcome] at hw
  obtain ⟨a, b, hab, ha, hb, hsa, hsb⟩ := hw
  have hwalk := (covers_walks d e v a b).mp hab
  obtain ⟨y, hy⟩ := hwalk.first
  obtain ⟨x, hx⟩ := hwalk.last
  have h2 := hcd.two_le_next
  have hnew : ∀ {i : Nat} {c : Connector} {n : Nat}, e.OnBox i c → n ≤ 1 →
      ((inserted d e).place c).isOn n = false := by
    intro i c n hc hn
    rw [hc.place_eq hce, Connector.isOn_withBox, decide_eq_false_iff_not]
    omega
  constructor
  · rw [← hsa]
    rcases mem_network.mp hy with ⟨z, hz, hza⟩ | ⟨z, hz, hza⟩ <;>
      obtain rfl : _ = a := congrArg Prod.fst hza
    · exact (hd z hz).1
    · rcases (inside_ends hce he hz).1 with hon | ⟨i, hi⟩
      · simp [opens, arrow, hon] at ha
      · exact hnew hi (by decide)
  · rw [← hsb]
    rcases mem_network.mp hx with ⟨z, hz, hzb⟩ | ⟨z, hz, hzb⟩ <;>
      obtain rfl : _ = b := congrArg Prod.snd hzb
    · exact (hd z hz).2
    · rcases (inside_ends hce he hz).2 with hon | ⟨i, hi⟩
      · simp [closes, arrow, hon] at hb
      · exact hnew hi (by decide)

theorem Inlined.keys_eraseIdx {s s' : Store} {host : Ref} {u i : Nat} {e k m : Diagram}
    (h : Inlined s s' host u e k m) (he : e.Consistent) (hu : e.boxes.keys[i]? = some u) :
    m.boxes.keys = e.boxes.keys.eraseIdx i ++ List.range' e.next k.boxes.length := by
  obtain ⟨hi, hget⟩ := List.getElem?_eq_some_iff.mp hu
  rw [h.keys, ← he.boxes_nodup.erase_getElem i hi, hget, he.boxes_nodup.erase_eq_filter]
  rfl

namespace Action
variable {s : Store} {host m p : Ref} {d e k : Diagram} {v u : Nat}

def substituteWithin (host m p : Ref) (v u : Nat) : Action Unit := do
  let s ← get
  let (c, s') := s.copy m
  set s'
  substitute c (.ofNat u) (.ref p)
  substitute host (.ofNat v) (.ref c)

theorem substituteWithin_spec (hd : s.diagram? host = some d) (he : s.diagram? m = some e)
    (hk : s.diagram? p = some k) (hcd : d.Consistent) (hce : e.Consistent) (hck : k.Consistent)
    (hde : e.Directed) (hdk : k.Directed) (hv : v ∈ d.boxes.keys) (hu : u ∈ e.boxes.keys)
    (hwires : ∀ w ∈ e.wires, w.toValue.refs = []) :
    ∃ s₂ m₁ t d₂, (substituteWithin host m p v u).perform s = (.ok (), t) ∧
      s.objects.length ≤ (s.copy m).1 ∧
      (s.copy m).2.diagram? (s.copy m).1 = some (e.rename (s.copyRef (s.reachable m))) ∧
      Inlined (s.copy m).2 s₂ (s.copy m).1 u (e.rename (s.copyRef (s.reachable m))) k m₁ ∧
      Inlined s₂ t host v d m₁ d₂ := by
  obtain ⟨hle, hcopy⟩ := Store.copy_getElem? (Store.lt_of_diagram? he) .refl (Store.diagram?_eq_some.mp he)
  let f := s.copyRef (s.reachable m)
  let c := (s.copy m).1
  let s₁ := (s.copy m).2
  have hc : s₁.diagram? c = some (e.rename f) := Store.diagram?_eq_some.mpr hcopy
  have hne : ∀ {r : Ref} {d : Diagram}, s.diagram? r = some d → r ≠ c := fun h =>
    Nat.ne_of_lt (Nat.lt_of_lt_of_le (Store.lt_of_diagram? h) hle)
  have hframe : Store.Frame c s s₁ := .of_append rfl
  have hwires' : (e.rename f).wires = e.wires := wires_rename_eq_self f hwires
  have hdir : (e.rename f).Directed := by
    intro w hw
    exact hde w (hwires' ▸ hw)
  obtain ⟨s₂, m₁, hrun₁, h₁⟩ := substitute_spec hc (hframe.diagram? (hne hk) hk) (hne hk)
    (hce.rename f) hck hdk (keys_rename f e ▸ hu)
  have hd₂ : s₂.diagram? host = some d := (hframe.trans h₁.frame).diagram? (hne hd) hd
  obtain ⟨t, d₂, hrun₂, h₂⟩ := substitute_spec hd₂ h₁.found (hne hd).symm hcd h₁.consistent
    (h₁.directed (hce.rename f) hck hdir hdk) hv
  refine ⟨s₂, m₁, t, d₂, ?_, hle, hc, h₁, h₂⟩
  rw [substituteWithin, perform_bind, perform_get]
  dsimp only
  rw [perform_bind, perform_set]
  dsimp only
  rw [perform_bind, hrun₁]
  exact hrun₂

end Action

/-- The box has references to what is in the store, and those the diagram at `m` has as well. -/
theorem Store.Closed.box_refs {s : Store} (hs : s.Closed) {m : Ref} {e : Diagram} (he : s.diagram? m = some e)
    {x : Nat} {b : Value} (hb : e.boxes.get? x = some b) :
    ∀ q ∈ b.refs, q ∈ s.refsAt m ∧ q < s.objects.length := by
  intro q hq
  have hvalue := Table.mem_values_of_get? hb
  have hmem : q ∈ s.refsAt m := Store.mem_refsAt_of_box he hvalue hq
  exact ⟨hmem, hs m q hmem⟩

section Boxes
variable {s s₂ t : Store} {host m p : Ref} {d e k m₁ d₂ : Diagram} {v u : Nat}
  (hs : s.Closed) (hd : s.diagram? host = some d) (he : s.diagram? m = some e)
  (hk : s.diagram? p = some k) (hcd : d.Consistent) (hce : e.Consistent)
  (hle : s.objects.length ≤ (s.copy m).1)
  (h₁ : Inlined (s.copy m).2 s₂ (s.copy m).1 u (e.rename (s.copyRef (s.reachable m))) k m₁)
  (h₂ : Inlined s₂ t host v d m₁ d₂)

include hle h₁ in
/-- All that was there is there as it was while the copy changes. -/
theorem Inlined.same_within (q : Ref) (o : Object) (ho : s.objects[q]? = some o) :
    s₂.objects[q]? = some o := by
  have hlt := (List.getElem?_eq_some_iff.mp ho).1
  have hframe : Store.Frame (s.copy m).1 s s₂ := (Store.Frame.of_append rfl).trans h₁.frame
  exact hframe.same q o (Nat.ne_of_lt (Nat.lt_of_lt_of_le hlt hle)) ho

include hs hd hcd hle h₁ h₂

include he in
/-- The boxes of the inner diagram come in as copies. -/
theorem Inlined.copiedAt_within (hself : ∀ b ∈ e.boxes.values, ¬ s.Reaches b m) {x j : Nat} {b : Value}
    (hb : e.boxes.get? x = some b) (hx : x ≠ u) (hj : m₁.boxes.keys[j]? = some x) :
    s.CopiedAt b t d₂ (d.next + j) := by
  let f := s.copyRef (s.reachable m)
  have hhost := Store.lt_of_diagram? hd
  have hrefs := hs.box_refs he hb
  have hlt : ∀ q ∈ b.refs, q < s.objects.length := fun q hq => (hrefs q hq).2
  have hcopy : s.IsCopy b s₂ (b.rename f) :=
    Store.isCopy_rename_of_frame (Store.lt_of_diagram? he) (fun q hq => .single (hrefs q hq).1)
      (hself b (Table.mem_values_of_get? hb)) h₁.frame
  have hget : m₁.boxes.get? x = some (b.rename f) := by
    have hkey : x ∈ (e.rename f).boxes.keys := keys_rename f e ▸ Table.mem_keys_of_get? hb
    rw [h₁.get?_old hkey hx, get?_rename, hb]
    rfl
  have hapart : s₂.Apart host (b.rename f) := fun _ _ _ _ hreach =>
    Nat.not_lt.mpr (hcopy.le_of_reaches (fun _ => hs.lt_of_reaches hlt) hreach) hhost
  have hsame := h₁.same_within hle
  have hd₂ : s₂.diagram? host = some d :=
    Store.diagram?_eq_some.mpr (hsame _ _ (Store.diagram?_eq_some.mp hd))
  have hplace := Table.getElem?_of_key h₁.consistent.boxes_nodup hj hget
  obtain ⟨b', hb', hheld⟩ := h₂.heldAt_new hcd hd₂ (.refl host s₂) hplace hapart
  have hlen : s.objects.length ≤ s₂.objects.length := by
    have h := h₁.frame.length_le
    rw [Store.copy, List.length_append] at h
    omega
  exact ⟨b', hb', hheld.isCopy hcopy hlt hlen h₂.frame hhost⟩

include hk in
/-- The boxes of the innermost diagram come in as they were. -/
theorem Inlined.heldAt_within (hce : (e.rename (s.copyRef (s.reachable m))).Consistent)
    (hc : (s.copy m).2.diagram? (s.copy m).1 = some (e.rename (s.copyRef (s.reachable m))))
    (hapart : ∀ b ∈ k.boxes.values, s.Apart host b) {x i j : Nat} {b : Value}
    (hb : k.boxes[i]? = some (x, b)) (hget : k.boxes.get? x = some b)
    (hj : m₁.boxes.keys[j]? = some (e.next + i)) : s.HeldAt b t d₂ (d.next + j) := by
  have hhost := Store.lt_of_diagram? hd
  have hlt : ∀ q ∈ b.refs, q < s.objects.length := fun q hq => (hs.box_refs hk hget q hq).2
  have hsame := h₁.same_within hle
  have hlen : s.objects.length ≤ s₂.objects.length := by
    have h := h₁.frame.length_le
    rw [Store.copy, List.length_append] at h
    omega
  have hnew : (s.copy m).2.Apart (s.copy m).1 b := fun _ _ _ _ hreach =>
    Nat.not_lt.mpr hle (hs.lt_of_reaches hlt (hs.reaches_of_append hlt rfl hreach))
  obtain ⟨b₁, hb₁, hheld₁⟩ := h₁.heldAt_new hce hc (.refl _ _) hb hnew
  have hheld₁ : s.Held b s₂ b₁ :=
    hheld₁.before (.of_append rfl) hd (hapart b (List.mem_map_of_mem (List.mem_of_getElem? hb)))
  have hd₂ : s₂.diagram? host = some d :=
    Store.diagram?_eq_some.mpr (hsame _ _ (Store.diagram?_eq_some.mp hd))
  have hplace := Table.getElem?_of_key h₁.consistent.boxes_nodup hj hb₁
  obtain ⟨b', hb', hheld⟩ := h₂.heldAt_new hcd hd₂ (.refl host s₂) hplace
    (hheld₁.apart hs hlt hsame hhost)
  exact ⟨b', hb', hheld₁.trans hheld hsame hlen⟩

end Boxes

end StringDiagram
