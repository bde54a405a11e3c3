import Mathlib.Data.Set.Function
import StringDiagram.Proofs.Substitution.Stages

/-! # Renumbered boxes

Substitutions in different orders give the same boxes different identifiers. Two orders are compared on the
network of three layers that they share: their wires are the same up to the numbers of the boxes, and as
often there if the walks are ranked. See `Order.Follows.mem_agree` and `Order.Follows.spliced_agree`. -/
namespace StringDiagram
open Diagram Network

theorem idxOf_of_getElem? {ks : List Nat} {i n : Nat} (hks : ks.Nodup) (h : ks[i]? = some n) : ks.idxOf n = i := by
  obtain ⟨hi, rfl⟩ := List.getElem?_eq_some_iff.mp h
  exact hks.idxOf_getElem i hi

namespace Connector
variable {σ : Nat → Nat} {c : Connector} {n : Nat}

def renumber (σ : Nat → Nat) (c : Connector) : Connector :=
  match c.box.boxId? with
  | some n => if σ n = n then c else c.withBox (.ofNat (σ n))
  | none => c

theorem renumber_eq_self (hn : c.box.boxId? = some n) (h : σ n = n) : c.renumber σ = c := by
  unfold renumber
  rw [hn]
  exact if_pos h

theorem renumber_withBox (σ : Nat → Nat) (c : Connector) (n : Nat) :
    (c.withBox (.ofNat n)).renumber σ = c.withBox (.ofNat (σ n)) := by
  unfold renumber
  rw [withBox, Value.boxId?_ofNat]
  dsimp only
  split
  · next h => rw [h, withBox]
  · rfl

theorem port_renumber (σ : Nat → Nat) (c : Connector) : (c.renumber σ).port = c.port := by
  unfold renumber
  split
  · split <;> rfl
  · rfl

@[simp] theorem isOn_withBox (c : Connector) (n v : Nat) :
    (c.withBox (.ofNat n)).isOn v = decide (n = v) := by
  simp [isOn, withBox]

end Connector

def Wire.renumber (σ : Nat → Nat) (w : Wire) : Wire := ⟨w.source.renumber σ, w.target.renumber σ⟩

namespace Diagram
variable {d e k : Diagram} {b i : Nat} {c : Connector}

def Links (d : Diagram) (v w : Nat) : Prop :=
  ∃ x ∈ d.wires, x.source.isOn v = true ∧ x.target.isOn w = true

instance (d : Diagram) (v w : Nat) : Decidable (d.Links v w) :=
  inferInstanceAs (Decidable (∃ x ∈ d.wires, _ ∧ _))

def OnBox (e : Diagram) (i : Nat) (c : Connector) : Prop :=
  ∃ u, e.boxes.keys[i]? = some u ∧ c.box.boxId? = some u

def Inside (e : Diagram) (b : Nat) (c : Connector) : Prop := c.isOn b = true ∨ ∃ i, e.OnBox i c

theorem OnBox.lt (h : e.OnBox i c) : i < e.boxes.length := by
  obtain ⟨u, hu, -⟩ := h
  exact Table.lt_of_key hu

/-- A box of `e` comes in under the identifier that its place gives it. -/
theorem OnBox.place_eq (he : e.Consistent) (h : e.OnBox i c) (d : Diagram) :
    (inserted d e).place c = c.withBox (.ofNat (d.next + i)) := by
  obtain ⟨u, hu, hc⟩ := h
  rw [IdMap.place, hc, Option.bind_some, get?_inserted he hu]

theorem Has.lt_next (hd : d.Consistent) (h : d.Has c) : ∃ n, c.box.boxId? = some n ∧ n < d.next := by
  obtain ⟨n, hn, hc⟩ := h
  exact ⟨n, hc, hd.below_next n hn⟩

theorem Has.onBox (h : d.Has c) (h0 : c.isOn inputId = false) (h1 : c.isOn outputId = false) :
    ∃ i, d.OnBox i c := by
  obtain ⟨n, hn, hc⟩ := h
  rcases mem_live.mp hn with rfl | rfl | hn
  · simp [Connector.isOn, hc] at h0
  · simp [Connector.isOn, hc] at h1
  · obtain ⟨i, hi⟩ := List.mem_iff_getElem?.mp hn
    exact ⟨i, n, hi, hc⟩

theorem inside_ends (he : e.Consistent) (hdir : e.Directed) {w : Wire} (hw : w ∈ e.wires) :
    e.Inside inputId w.source ∧ e.Inside outputId w.target := by
  obtain ⟨hs, ht⟩ := he.has_ends hw
  obtain ⟨hs1, ht0⟩ := hdir w hw
  constructor
  · cases hs0 : w.source.isOn inputId with
    | true => exact Or.inl hs0
    | false => exact Or.inr (hs.onBox hs0 hs1)
  · cases ht1 : w.target.isOn outputId with
    | true => exact Or.inl ht1
    | false => exact Or.inr (ht.onBox ht0 ht1)

/-- Two connectors are met only on box `v` and at the boundary. -/
theorem isOn_of_meets {v i j : Nat} {y x : Node} (h : meets v i j y x = true) :
    (y.1 = i ∧ x.1 = j ∧ x.2.isOn inputId = true ∧ y.2.isOn v = true) ∨
      (y.1 = j ∧ x.1 = i ∧ y.2.isOn outputId = true ∧ x.2.isOn v = true) := by
  simp only [meets, Bool.or_eq_true, Bool.and_eq_true, beq_iff_eq] at h
  rcases h with ⟨⟨⟨hy, hx⟩, hb⟩, hs⟩ | ⟨⟨⟨hy, hx⟩, hb⟩, hs⟩
  · refine Or.inl ⟨hy, hx, hb, ?_⟩
    rw [Connector.isOn_eq_of_same hs]
    simp
  · refine Or.inr ⟨hy, hx, hb, ?_⟩
    rw [Connector.isOn_eq_of_same hs]
    simp

/-- Other layers meet elsewhere. -/
theorem meets_disjoint {v v' i j i' j' : Nat} (h : i ≠ i' ∨ j ≠ j') (h' : i ≠ j' ∨ j ≠ i') (y x : Node) :
    ¬ (meets v i j y x = true ∧ meets v' i' j' y x = true) := by
  rintro ⟨hm, hm'⟩
  rcases isOn_of_meets hm with ⟨hy, hx, -⟩ | ⟨hy, hx, -⟩ <;>
    rcases isOn_of_meets hm' with ⟨hy', hx', -⟩ | ⟨hy', hx', -⟩ <;> omega

/-- Without a wire from `v` to `v` no walk comes back to `v`. -/
theorem ranked_of_not_links {v : Nat} (h : ¬ d.Links v v) (e : Diagram) :
    Ranked (meets v 0 1) (d.network e)
      (fun a => if a.1 = 0 then if a.2.isOn v then 2 else 0 else 1)
      (fun a => if a.1 = 0 then if a.2.isOn v then 0 else 2 else 1) 2 := by
  refine ⟨fun a ha => ?_, fun a _ => ?_, fun a _ b _ hm => ?_⟩
  · rcases mem_network.mp ha with ⟨w, hw, rfl⟩ | ⟨w, -, rfl⟩
    · have hl : ¬ (w.source.isOn v = true ∧ w.target.isOn v = true) := fun hl => h ⟨w, hw, hl⟩
      cases hs : w.source.isOn v <;> cases ht : w.target.isOn v <;> simp_all [arrow]
    · simp [arrow]
  · by_cases ha : a.2.1 = 0
    · cases a.2.2.isOn v <;> simp [ha]
    · simp [ha]
  · rcases isOn_of_meets hm with ⟨ha, hb, -, hv⟩ | ⟨ha, hb, -, hv⟩ <;> simp [ha, hb, hv]

/-- The two diagrams are the same up to the numbers of their boxes. -/
structure Renumbers (σ : Nat → Nat) (d d' : Diagram) : Prop where
  inputs : d'.inputs = d.inputs
  outputs : d'.outputs = d.outputs
  boxes : Set.BijOn σ {n | n ∈ d.boxes.keys} {n | n ∈ d'.boxes.keys}
  wires : ∀ w, w ∈ d'.wires ↔ ∃ x ∈ d.wires, x.renumber σ = w

/-- The boxes of `e` came into both diagrams, under numbers that `σ` matches, as they were in store `s`. -/
def Matches (σ : Nat → Nat) (s : Store) (e : Diagram) (t : Store) (d : Diagram) (ids : IdMap) (t' : Store)
    (d' : Diagram) (ids' : IdMap) : Prop :=
  ∀ u b, e.boxes.get? u = some b → ∃ n, ids.get? u = some n ∧ ids'.get? u = some (σ n) ∧
    s.HeldAt b t d n ∧ s.HeldAt b t' d' (σ n)

theorem exists_place {u : Nat} {b : Value} (h : e.boxes.get? u = some b) :
    ∃ i, i < e.boxes.length ∧ e.boxes[i]? = some (u, b) ∧ e.boxes.keys[i]? = some u := by
  obtain ⟨i, hi⟩ := List.mem_iff_getElem?.mp (Table.mem_of_get? h)
  have hu := Table.key_of_getElem? hi
  exact ⟨i, Table.lt_of_key hu, hi, hu⟩

def chained (b c : Value) : Diagram :=
  (((((new [] []).addBox b).addBox c).link 0 2 (.ofPorts 0 0 2 0)).link 2 3 (.ofPorts 2 0 3 0)).link 3 1
    (.ofPorts 3 0 1 0)

def passed (b : Value) : Diagram :=
  ((((new [] []).addBox b).link 0 2 (.ofPorts 0 0 2 0)).link 2 1 (.ofPorts 2 0 1 0)).link 0 1
    (.ofPorts 0 0 1 0)

theorem consistent_chained (b c : Value) : (chained b c).Consistent := by
  have h := ((consistent_new [] []).addBox b).addBox c
  have hlive : (new [] []).live = [0, 1] := rfl
  have hnext : (new [] []).next = 2 := rfl
  have hnext' : ((new [] []).addBox b).next = 3 := rfl
  refine ((h.link ?_ ?_ ?_).link ?_ ?_ ?_).link ?_ ?_ ?_ <;>
    simp [live_addBox, hlive, hnext, hnext', Wire.ofPorts, Connector.input, Connector.output]

theorem consistent_passed (b : Value) : (passed b).Consistent := by
  have h := (consistent_new [] []).addBox b
  have hlive : (new [] []).live = [0, 1] := rfl
  have hnext : (new [] []).next = 2 := rfl
  refine ((h.link ?_ ?_ ?_).link ?_ ?_ ?_).link ?_ ?_ ?_ <;>
    simp [live_addBox, hlive, hnext, Wire.ofPorts, Connector.input, Connector.output]

end Diagram

def Value.named (name : String) : Value := .atomic (.hom (.text name) [] [])

namespace Order
variable {o o' : Order} {d e k d₁ d₂ e₂ d' e' k' d₁' d₂' e₂' : Diagram} {x y x' y' : Nat}

def forward : Order := ⟨0, 1, 2, 1⟩

theorem proper_forward : forward.Proper := ⟨by decide, by decide, by decide⟩

inductive Layered (o : Order) (d e k : Diagram) (b : Nat) : Node → Prop
  | host {c : Connector} (h : d.Has c) : Layered o d e k b (o.host, c)
  | inner {c : Connector} (h : e.Inside b c) : Layered o d e k b (o.inner, c)
  | rest {c : Connector} (h : k.Inside b c) : Layered o d e k b (o.rest, c)

section Layered
variable (hd : d.Consistent) (he : e.Consistent) (hk : k.Consistent) (hde : e.Directed) (hdk : k.Directed)

include hd he hk hde hdk

theorem layered_of_mem {a : Node × Node} (ha : a ∈ o.arrows d e k) :
    o.Layered d e k inputId a.1 ∧ o.Layered d e k outputId a.2 := by
  rcases mem_arrows.mp ha with ⟨w, hw, rfl⟩ | ⟨w, hw, rfl⟩ | ⟨w, hw, rfl⟩
  · exact ⟨.host (hd.has_ends hw).1, .host (hd.has_ends hw).2⟩
  · exact ⟨.inner (inside_ends he hde hw).1, .inner (inside_ends he hde hw).2⟩
  · exact ⟨.rest (inside_ends hk hdk hw).1, .rest (inside_ends hk hdk hw).2⟩

theorem layered_of_covers {meets : Node → Node → Bool} {U : Multiset (Node × Node)}
    (hU : Covers meets (o.arrows d e k) U) {a : Node × Node} (ha : a ∈ U) :
    o.Layered d e k inputId a.1 ∧ o.Layered d e k outputId a.2 := by
  have hw := (hU a.1 a.2).mp ha
  obtain ⟨y, hy⟩ := hw.first
  obtain ⟨x, hx⟩ := hw.last
  exact ⟨(layered_of_mem hd he hk hde hdk hy).1, (layered_of_mem hd he hk hde hdk hx).2⟩

end Layered

section Host
variable {ids ids' : IdMap} {b : Nat} {c : Connector}

/-! Where the nodes of the three layers are after both substitutions, if these are into one host. -/

theorem name_host (ho : o.Proper) (hs : o.side = 1) : o.name ids ids' (o.host, c) = c := by
  have h := ho.rest_host.symm
  simp [name, into, found, spot, hs, h]

theorem name_inner (ho : o.Proper) (hs : o.side = 1) :
    o.name ids ids' (o.inner, c) = ids.place c := by
  have h := ho.rest_inner.symm
  have h' := ho.host_inner.symm
  simp [name, into, found, spot, hs, h, h']

theorem name_rest (hs : o.side = 1) : o.name ids ids' (o.rest, c) = ids'.place c := by
  simp [name, into, spot, hs]

theorem stays_host (ho : o.Proper) (hs : o.side = 1) :
    o.stays ids ids' x y b (o.host, c) = (!c.isOn x && !c.isOn y) := by
  have h := ho.rest_host.symm
  simp [stays, name_host ho hs, keeps, into, found, hs, h, beq_false_of_ne h]

theorem stays_inner (ho : o.Proper) (hs : o.side = 1) : o.stays ids ids' x y b (o.inner, c) =
    (!c.isOn b && !(ids.place c).isOn x && !(ids.place c).isOn y) := by
  have h := ho.rest_inner.symm
  have h' := ho.host_inner.symm
  simp [stays, name_inner ho hs, keeps, into, found, hs, h, h', beq_false_of_ne h, beq_false_of_ne h']

theorem stays_rest (hs : o.side = 1) :
    o.stays ids ids' x y b (o.rest, c) = (!c.isOn b && !(ids'.place c).isOn y) := by
  simp [stays, name_rest hs, keeps, into, hs]

/-- Two substitutions into one host keep their nodes if the ports of box `y` are, before the first of them,
those of box `z` in layer `l`. -/
theorem meets_into (hs : o.side = 1) {z l : Nat} (hl : l ≠ o.rest) {a a' : Node}
    (h : a.1 ≠ o.rest → ∀ p, (o.found ids a).same (.input (.ofNat y) p) =
      (a.1 == l && a.2.same (.input (.ofNat z) p)))
    (h' : a'.1 ≠ o.rest → ∀ p, (o.found ids a').same (.output (.ofNat y) p) =
      (a'.1 == l && a'.2.same (.output (.ofNat z) p))) :
    meets y 0 1 (o.into ids a) (o.into ids a') = meets z l o.rest a a' := by
  by_cases ha : a.1 = o.rest <;> by_cases ha' : a'.1 = o.rest
  · simp [meets, into, hs, ha, ha', hl.symm]
  · have hr := h' ha' a.2.port
    simp only [meets, into, hs, ha, ha', if_true, if_false]
    simp [hr, beq_false_of_ne hl.symm, Bool.and_left_comm, Bool.and_assoc]
  · have hr := h ha a'.2.port
    simp only [meets, into, hs, ha, ha', if_true, if_false]
    simp [hr, beq_false_of_ne hl.symm, Bool.and_left_comm, Bool.and_assoc]
  · simp [meets, into, hs, ha, ha']

end Host

/-- If walks ascend, none leads from box `y` to box `y` where they descend from the one to the other. -/
theorem not_links (ho : o.Proper) (hw : (d₁.wires : Multiset Wire) = d.spliced e x)
    {meets' : Node → Node → Bool} {start finish : Node → Nat} {bound : Nat}
    (hr : Ranked (fun b a => meets x o.host o.inner b a || meets' b a) (o.arrows d e k) start finish bound)
    (h : ∀ a ∈ o.walked d e k x, a.1.1 ≠ o.rest → a.2.1 ≠ o.rest →
      o.keeps (inserted d e) x inputId a.1 = true → o.keeps (inserted d e) x outputId a.2 = true →
      (o.found (inserted d e) a.1).isOn y = true → (o.found (inserted d e) a.2).isOn y = true →
      finish a.2 < start a.1) : ¬ d₁.Links y y := by
  rintro ⟨w, hmem, hs, ht⟩
  rw [← Multiset.mem_coe, hw, spliced_eq_outcome, mem_outcome] at hmem
  obtain ⟨a, b, hab, ha, hb, hsa, hsb⟩ := hmem
  have hlift : (o.lift a, o.lift b) ∈ o.walked d e k x :=
    Multiset.mem_add.mpr (Or.inl (Multiset.mem_map.mpr ⟨(a, b), hab, rfl⟩))
  have hrest : ∀ c : Node, (o.lift c).1 ≠ o.rest := by
    intro c
    by_cases hc : c.1 = 0
    · simp [lift, hc, ho.rest_host.symm]
    · simp [lift, hc, ho.rest_inner.symm]
  have hle := hr.left.walk ((covers_walked ho d e k x _ _).mp hlift)
  have hlt := h _ hlift (hrest a) (hrest b) ((keeps_lift ho _ _ _).trans ha)
    ((keeps_lift ho _ _ _).trans hb) (by rw [found_lift ho, hsa, hs]) (by rw [found_lift ho, hsb, ht])
  dsimp only at hlt
  omega

section Agree
variable {m m' : Node → Node → Bool} {σ : Nat → Nat}

def Agrees (o o' : Order) (σ : Nat → Nat) (E : Multiset (Node × Node)) (m : Node → Node → Bool)
    (ids₁ ids₂ ids₁' ids₂' : IdMap) (x y x' y' : Nat) : Prop :=
  ∀ U, Covers m E U → o'.outcome₂ ids₁' ids₂' x' y' U =
    (o.outcome₂ ids₁ ids₂ x y U).map (Wire.renumber σ)

/-- Orders that do the same at each node agree. -/
theorem agrees_of_layered (hd : d.Consistent) (he : e.Consistent) (hk : k.Consistent) (hde : e.Directed)
    (hdk : k.Directed) {o₀ : Order} {ids₁ ids₂ ids₁' ids₂' : IdMap}
    (h : ∀ b ≤ outputId, ∀ a, o₀.Layered d e k b a →
      o.stays ids₁ ids₂ x y b a = o'.stays ids₁' ids₂' x' y' b a ∧
        (o.stays ids₁ ids₂ x y b a = true →
          o'.name ids₁' ids₂' a = (o.name ids₁ ids₂ a).renumber σ)) :
    o.Agrees o' σ (o₀.arrows d e k) m ids₁ ids₂ ids₁' ids₂' x y x' y' := by
  intro U hU
  have hstart := fun a (ha : a ∈ U) =>
    h inputId (by decide) a.1 (layered_of_covers hd he hk hde hdk hU ha).1
  have hfinish := fun a (ha : a ∈ U) =>
    h outputId (Nat.le_refl _) a.2 (layered_of_covers hd he hk hde hdk hU ha).2
  exact outcome_congr (fun a ha => (hstart a ha).1) (fun a ha => (hfinish a ha).1)
    (fun a ha => (hstart a ha).2) fun a ha => (hfinish a ha).2

variable (h : o.Follows d e k d₁ d₂ e₂ x y m) (h' : o'.Follows d' e' k' d₁' d₂' e₂' x' y' m')
  (hE : o'.arrows d' e' k' = o.arrows d e k)
  (hm : (fun b a => meets x' o'.host o'.inner b a || m' b a) =
    fun b a => meets x o.host o.inner b a || m b a)
  (hσ : o.Agrees o' σ (o.arrows d e k) (fun b a => meets x o.host o.inner b a || m b a)
    (inserted d e) (inserted d₂ e₂) (inserted d' e') (inserted d₂' e₂') x y x' y')

include h h' hE hm hσ

theorem Follows.mem_agree (w : Wire) :
    w ∈ d₂'.spliced e₂' y' ↔ ∃ z ∈ d₂.spliced e₂ y, z.renumber σ = w := by
  obtain ⟨U, hU⟩ := exists_covers (fun b a => meets x o.host o.inner b a || m b a) (o.arrows d e k)
  have hU' : Covers (fun b a => meets x' o'.host o'.inner b a || m' b a) (o'.arrows d' e' k') U := by
    rwa [hm, hE]
  rw [h'.mem_spliced hU', hσ U hU, Multiset.mem_map]
  exact exists_congr fun z => and_congr_left fun _ => (h.mem_spliced hU z).symm

theorem Follows.spliced_agree
    (hd : ∀ b a, ¬ (meets x o.host o.inner b a = true ∧ m b a = true))
    (hd' : ∀ b a, ¬ (meets x' o'.host o'.inner b a = true ∧ m' b a = true))
    {start finish : Node → Nat} {bound : Nat}
    (hr : Ranked (fun b a => meets x o.host o.inner b a || m b a) (o.arrows d e k) start finish bound)
    (h₁ : ¬ d.Links x x) (h₂ : ¬ d₂.Links y y) (h₁' : ¬ d'.Links x' x') (h₂' : ¬ d₂'.Links y' y') :
    d₂'.spliced e₂' y' = (d₂.spliced e₂ y).map (Wire.renumber σ) := by
  obtain ⟨U, hU, hS⟩ := exists_solution hr
  have hr' : Ranked (fun b a => meets x' o'.host o'.inner b a || m' b a) (o'.arrows d' e' k') start finish
      bound := by
    rwa [hm, hE]
  have hS' : Solves (fun b a => meets x' o'.host o'.inner b a || m' b a) (o'.arrows d' e' k') U := by
    rwa [hm, hE]
  rw [h.spliced_eq hd hr (ranked_of_not_links h₁ e) (ranked_of_not_links h₂ e₂) hS,
    h'.spliced_eq hd' hr' (ranked_of_not_links h₁' e') (ranked_of_not_links h₂' e₂') hS', hσ U hU]

end Agree

end Order

def Action.substituteTwice (host : Ref) (v : Nat) (p : Ref) (w : Nat) (q : Ref) : Action Unit := do
  substitute host (.ofNat v) (.ref p)
  substitute host (.ofNat w) (.ref q)

theorem Action.substituteTwice_spec {s : Store} {host p q : Ref} {d e k : Diagram} {v w : Nat}
    (hd : s.diagram? host = some d) (he : s.diagram? p = some e) (hk : s.diagram? q = some k)
    (hp : p ≠ host) (hq : q ≠ host) (hcd : d.Consistent) (hce : e.Consistent) (hck : k.Consistent)
    (hde : e.Directed) (hdk : k.Directed) (hv : v ∈ d.boxes.keys)
    (hw : w ∈ d.boxes.keys ∧ w ≠ v ∨ d.next ≤ w ∧ w < d.next + e.boxes.length) :
    ∃ s₁ d₁ s₂ d₂, (substituteTwice host v p w q).perform s = (.ok (), s₂) ∧
      Inlined s s₁ host v d e d₁ ∧ Inlined s₁ s₂ host w d₁ k d₂ := by
  obtain ⟨s₁, d₁, hrun₁, h₁⟩ := substitute_spec hd he hp hcd hce hde hv
  obtain ⟨s₂, d₂, hrun₂, h₂⟩ := substitute_spec h₁.found (h₁.frame.diagram? hq hk) hq h₁.consistent hck hdk
    (h₁.mem_keys.mpr hw)
  refine ⟨s₁, d₁, s₂, d₂, ?_, h₁, h₂⟩
  rw [substituteTwice, perform_bind, hrun₁]
  exact hrun₂

end StringDiagram
