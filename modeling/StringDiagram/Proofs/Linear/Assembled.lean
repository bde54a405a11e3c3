import StringDiagram.Proofs.Category.Arrivals
import StringDiagram.Proofs.Category.Operations
import StringDiagram.Proofs.Linear.Strands
import StringDiagram.Proofs.Linear.Substituted

/-! # Diagrams assembled from parts

Composition and product leave a box of their scaffold as it is, unless it is a diagram; a diagram gives its
boxes and its wires. Either way the host stays valid and linear, and it holds the boxes that the two parts
brought along: `compose_assembles` and `otimesBoxes_assembles`. -/
namespace StringDiagram
open Diagram

/-- Two correspondences between multisets, one after the other. -/
theorem rel_comp {α β γ : Type} {R : α → β → Prop} {S : β → γ → Prop} {x : Multiset α} {y : Multiset β}
    {z : Multiset γ} (h : Multiset.Rel R x y) (h' : Multiset.Rel S y z) :
    Multiset.Rel (fun a c => ∃ b, R a b ∧ S b c) x z := by
  induction h generalizing z with
  | zero =>
    rw [Multiset.rel_zero_left] at h'
    exact h' ▸ .zero
  | cons hab _ ih =>
    obtain ⟨c, z', hbc, hz', rfl⟩ := Multiset.rel_cons_left.mp h'
    exact .cons ⟨_, hab, hbc⟩ (ih hz')

theorem rel_of_forall₂ {α β : Type} {R : α → β → Prop} {as : List α} {bs : List β}
    (h : List.Forall₂ R as bs) : Multiset.Rel R (as : Multiset α) (bs : Multiset β) := by
  induction h with
  | nil => exact .zero
  | cons hab _ ih => exact .cons hab ih

theorem exists_of_rel {α β : Type} {R : α → β → Prop} {x : Multiset α} {y : Multiset β}
    (h : Multiset.Rel R x y) {b : β} (hb : b ∈ y) : ∃ a ∈ x, R a b := by
  obtain ⟨a, ha, hab⟩ := Multiset.exists_mem_of_rel_of_mem (Multiset.rel_flip.mpr h) hb
  exact ⟨a, ha, hab⟩

namespace Store
variable {s t u : Store} {host n : Nat} {b b' : Value} {d d' : Diagram}

/-- The boxes that a box brings along: a diagram those that it holds, and anything else itself. -/
def parts (s : Store) (b : Value) : Multiset Value :=
  match s.asDiagram? b with
  | some (_, d) => d.boxes.values
  | none => {b}

/-- If the box is a diagram, nothing in its rows has an identity, so that its copies have the same rows. -/
def Plain (s : Store) (b : Value) : Prop :=
  ∀ r d, s.asDiagram? b = some (r, d) → ∀ side, Value.refsAll (d.row side) = []

theorem parts_of_diagram {r : Ref} (hd : s.diagram? r = some d) : s.parts (.ref r) = d.boxes.values := by
  rw [parts, asDiagram?_eq_some.mpr ⟨rfl, hd⟩]

theorem parts_of_not_diagram (h : s.asDiagram? b = none) : s.parts b = {b} := by rw [parts, h]

theorem Linear.congr (h : s.Linear d)
    (harity : ∀ b ∈ d.boxes.values, ∀ side n, t.Arity side b n ↔ s.Arity side b n) : t.Linear d := by
  have hport : ∀ side c, t.Port d side c ↔ s.Port d side c := by
    intro side c
    constructor
    · rintro (hi | ⟨hv, hn, hi⟩)
      · exact .edge hi
      · exact .box hv ((harity _ (Table.mem_values_of_get? hv) side _).mp hn) hi
    · rintro (hi | ⟨hv, hn, hi⟩)
      · exact .edge hi
      · exact .box hv ((harity _ (Table.mem_values_of_get? hv) side _).mpr hn) hi
  exact linear_iff.mpr fun side =>
    ⟨(linear_iff.mp h side).1, fun c => ((linear_iff.mp h side).2 c).trans (hport side c).symm⟩

section Grows
variable (hg : Grows s t)
include hg

theorem keepsPorts_of_grows : KeepsPorts s t := keepsPorts_of_objects fun _ _ h => Or.inl (hg.get h)

theorem asDiagram?_grows (hb : ∀ r ∈ b.refs, r < s.objects.length) : t.asDiagram? b = s.asDiagram? b := by
  cases b with
  | ref r => rw [asDiagram?, asDiagram?, diagram?_congr (hg.getElem? (hb r List.mem_cons_self))]
  | _ => rfl

theorem Proper.grows (h : s.Proper d) (hr : ∀ b ∈ d.boxes.values, s.Rooted b) : t.Proper d := by
  refine ⟨h.consistent, validate_eq_ok.mpr fun w hw => ?_, h.linear.congr fun b hb side n => ?_⟩
  · exact (validate_eq_ok.mp h.valid w hw).transfer (keepsPorts_of_grows hg) rfl rfl fun _ _ _ hb => hb
  · simp only [Arity, ports_congr fun r hr' => hg.getElem? ((hr b hb).lt_of_ref hr')]

end Grows

structure Part (s : Store) (b : Value) : Prop where
  refs_lt : ∀ q ∈ b.refs, q < s.objects.length
  proper : ∀ r d, s.asDiagram? b = some (r, d) → s.Proper d
  rooted : ∀ c ∈ s.parts b, s.Rooted c
  plain : ∀ c ∈ s.parts b, s.Plain c

structure TookIn (s : Store) (host : Ref) (n : Nat) (b : Value) (d : Diagram) (t : Store) (d' : Diagram) : Prop where
  found : t.diagram? host = some d'
  proper : t.Proper d'
  inputs : d'.inputs = d.inputs
  outputs : d'.outputs = d.outputs
  others : ∀ m c, m ≠ n → d.boxes.get? m = some c → d'.boxes.get? m = some c
  boxes : ∃ new : Multiset Value, Multiset.Rel (s.CameIn host t) (s.parts b) new ∧
    (d'.boxes.values : Multiset Value) = new + (d.boxes.remove n).values

end Store

namespace Action
open Store
variable {s s₁ t : Store} {host n : Nat} {b : Value} {d : Diagram}

/-- A box that is no diagram stays, and that is noted. -/
theorem perform_substitute_atomic (hd : s.diagram? host = some d) (hn : d.boxes.get? n = some b)
    (hb : s.asDiagram? b = none) : (substitute host (.ofNat n) .null).perform s =
      (.ok (), { s with notes := s.notes ++ [.atomic n] }) := by
  rw [substitute, perform_bind, perform_diagram hd]
  dsimp only
  rw [Table.resolve_eq_ok.mpr ⟨Value.boxId?_ofNat n, hn⟩, perform_bind, perform_ofExcept]
  dsimp only
  rw [perform_bind, perform_get]
  simp only [hb, perform_note]

theorem substitute_part (hg : Grows s s₁) (hd : s₁.diagram? host = some d)
    (hp : s₁.Proper d) (hrefs : ∀ c ∈ d.boxes.values, ∀ q ∈ c.refs, q < s₁.objects.length)
    (hn : d.boxes.get? n = some b) (hb : s.Part b) :
    ∃ t d', (substitute host (.ofNat n) .null).perform s₁ = (.ok (), t) ∧ Frame host s₁ t ∧
      s.TookIn host n b d t d' := by
  have hsame := asDiagram?_grows hg hb.refs_lt
  cases hcase : s.asDiagram? b with
  | none =>
    refine ⟨_, d, perform_substitute_atomic hd hn (hsame.trans hcase), .of_append (List.append_nil _).symm, ?_⟩
    have hf : Frame host s₁ { s₁ with notes := s₁.notes ++ [.atomic n] } := .of_append (List.append_nil _).symm
    refine ⟨hd, ⟨hp.consistent, hp.valid, hp.linear.congr fun _ _ _ _ => Iff.rfl⟩, rfl, rfl, fun _ _ _ h => h,
      {b}, ?_, ?_⟩
    · rw [parts_of_not_diagram hcase]
      have hheld := (Held.of_not_diagram (hsame.trans hcase)).after hf (lt_of_diagram? hd)
      exact .cons ⟨s₁, d, hg, hd, s₁, d, .refl _ _, hd, rfl, rfl, hf, hheld⟩ .zero
    · exact Multiset.coe_eq_coe.mpr (Table.perm_values_of_get? hp.consistent.boxes_nodup hn)
  | some found =>
    obtain ⟨r, e⟩ := found
    obtain ⟨rfl, he⟩ := asDiagram?_eq_some.mp hcase
    have he₁ := hg.diagram? he
    have hparts := parts_of_diagram he
    have hrooted : ∀ c ∈ e.boxes.values, s.Rooted c := fun c hc => hb.rooted c (hparts ▸ hc)
    have hpe := (hb.proper r e hcase).grows hg hrooted
    obtain ⟨t, d', hrun, h⟩ := inline_spec hd he₁ hp.consistent hpe.consistent
      (hpe.linear.directed hpe.consistent) (Table.mem_keys_of_get? hn)
    have hlinear := inline_linear hd he₁ hrefs (fun c hc q hq => ((hrooted c hc).grows hg).lt_of_ref hq)
      hp.consistent hpe.consistent hp.linear hpe.linear hn (fun side => (arity_of_diagram he₁).mpr rfl) hrun h
    have hcopyable : s₁.Copyable e := copyable_of_plain hpe.consistent fun r' k hr' hk => by
      have hk' := (asDiagram?_grows hg fun _ => (hrooted _ hr').lt_of_ref).symm.trans
        (asDiagram?_eq_some.mpr ⟨rfl, hk⟩)
      exact hb.plain _ (hparts ▸ hr') r' k hk'
    obtain ⟨d'', hd'', hvalid⟩ := inline_valid hd he₁ hp.consistent hpe.consistent hp.valid hpe.valid hn
      (sameRows_diagram he₁) hcopyable hrun
    obtain rfl := Option.some.inj (h.found.symm.trans hd'')
    obtain ⟨d₂, held, hd₂, -, -, hheld, hboxes⟩ := inline_boxes hd he₁ hp.consistent (Table.mem_keys_of_get? hn) hrun
    obtain rfl := Option.some.inj (h.found.symm.trans hd₂)
    refine ⟨t, d', (perform_substitute hd he₁ (Value.boxId?_ofNat n) hn (Or.inr ⟨rfl, rfl⟩)).trans hrun, h.frame,
      h.found, ⟨h.consistent, hvalid, hlinear⟩, h.inputs, h.outputs, fun m c hm hc => ?_, held, ?_, ?_⟩
    · exact (h.get?_old (Table.mem_keys_of_get? hc) hm).trans hc
    · rw [hparts]
      exact (rel_of_forall₂ hheld).mono fun _ _ _ _ he => ⟨s₁, d, hg, hd, he⟩
    · rw [hboxes, Table.values, List.map_append, List.map_snd_zip (by simp), add_comm, Multiset.coe_add]
      rfl

end Action

structure Store.Assembles (s : Store) (held : Multiset Value) (inputs outputs : List Value) (t : Store)
    (r : Ref) (d : Diagram) : Prop where
  grows : Grows s t
  found : t.diagram? r = some d
  proper : t.Proper d
  inputs : d.inputs = inputs
  outputs : d.outputs = outputs
  boxes : Multiset.Rel (fun b b' => s.Kept b t b' ∧ t.Rooted b') held d.boxes.values

structure Store.Ready (s : Store) (v b : Value) (ins outs : List Value) : Prop where
  box : s.boxOrAtomic v = .ok b
  input : s.Reads .input b ins
  output : s.Reads .output b outs
  part : s.Part b
  named : ∃ name, s.boxName b = .ok name

namespace Store
variable {s t : Store} {v b : Value} {ins outs : List Value}

theorem boxName_grows (hg : Grows s t) (h : ∃ name, s.boxName b = .ok name) :
    ∃ name, t.boxName b = .ok name := by
  obtain ⟨name, hname⟩ := h
  cases b with
  | atomic e =>
    obtain ⟨x, hx, -⟩ := bind_eq_ok.mp hname
    exact ⟨_, bind_eq_ok.mpr ⟨x, Value.shown_mono (texts_mono hg) _ _ x hx, rfl⟩⟩
  | ref r =>
    cases ho : s.objects[r]? with
    | none => simp [boxName, ho] at hname
    | some o =>
      have ho' := hg.get ho
      cases o with
      | diagram d =>
        simp only [boxName, ho] at hname
        cases hn : s.diagramName d with
        | error e => simp [hn] at hname
        | ok x =>
          have hx : t.diagramName d = .ok x := nameWith_mono (texts_mono hg) d x hn
          exact ⟨.text x, by simp only [boxName, ho', hx]; rfl⟩
      | block k => exact ⟨.text k.text, by simp only [boxName, ho']⟩
      | shape k =>
        obtain ⟨_, _, _ | _ | n⟩ := k
        · simp [boxName, ho] at hname
        · simp [boxName, ho] at hname
        · exact ⟨.text n, by simp only [boxName, ho']⟩
      | expression k => simp [boxName, ho] at hname
  | _ => cases hname

theorem boxOrAtomic_self (h : s.boxOrAtomic v = .ok b) {types : Value} (hports : s.ports .input b = .ok types) :
    s.boxOrAtomic b = .ok b := by
  obtain ⟨answer, hbox, h⟩ := bind_eq_ok.mp h
  cases answer with
  | true =>
    obtain rfl : v = b := Except.ok.inj h
    exact bind_eq_ok.mpr ⟨true, hbox, rfl⟩
  | false =>
    obtain rfl : Value.atomic v = b := Except.ok.inj h
    obtain ⟨vs, hvs, -⟩ := bind_eq_ok.mp hports
    refine bind_eq_ok.mpr ⟨true, ?_, rfl⟩
    simp only [isBox, hvs]

theorem Ready.operand (h : s.Ready v b ins outs) : s.Operand v b ins outs := by
  obtain ⟨types, hports, hentries⟩ := h.input
  obtain ⟨types', hports', hentries'⟩ := h.output
  have hself := boxOrAtomic_self h.box hports
  refine ⟨h.box, ?_, ?_⟩
  · rw [dom, hself]
    exact bind_eq_ok.mpr ⟨b, rfl, bind_eq_ok.mpr ⟨types, hports, collect_of_entries hentries⟩⟩
  · rw [codom, hself]
    exact bind_eq_ok.mpr ⟨b, rfl, bind_eq_ok.mpr ⟨types', hports', collect_of_entries hentries'⟩⟩

end Store

namespace Action
open Store
variable {s s₁ : Store} {host : Ref} {d : Diagram} {W : Multiset Wire} {v w b c : Value}
  {ins ins' mid mid' outs outs' : List Value}

/-- Both boxes of a scaffold give what they bring along. -/
theorem fill_parts (hg : Grows s s₁) (hh : s.objects.length ≤ host) (hd : s₁.diagram? host = some d)
    (hp : s₁.Proper d) (hw : Woven ins outs [b, c] W d) (hb : s.Part b) (hc : s.Part c) :
    ∃ t d', (do substitute host (.ofNat 2) .null; substitute host (.ofNat 3) .null).perform s₁ = (.ok (), t) ∧
      s.Assembles (s.parts b + s.parts c) ins outs t host d' := by
  have hvalues : d.boxes.values = [b, c] := by rw [hw.boxes]; rfl
  have hrefs : ∀ x ∈ d.boxes.values, ∀ q ∈ x.refs, q < s₁.objects.length := by
    intro x hx q hq
    rw [hvalues, List.mem_pair] at hx
    rcases hx with rfl | rfl
    · exact Nat.lt_of_lt_of_le (hb.refs_lt q hq) hg.length_le
    · exact Nat.lt_of_lt_of_le (hc.refs_lt q hq) hg.length_le
  obtain ⟨t₁, d₁, hrun₁, hf₁, h₁⟩ := substitute_part hg hd hp hrefs (hw.get? (i := 0) rfl) hb
  obtain ⟨new₁, hrel₁, hboxes₁⟩ := h₁.boxes
  have hg₁ : Grows s t₁ := .of_frame hf₁ hg hh
  have hrest : (d.boxes.remove 2).values = [c] := by rw [hw.boxes]; rfl
  have hc₁ : d₁.boxes.get? 3 = some c := h₁.others 3 c (by decide) (hw.get? (i := 1) rfl)
  have hrefs₁ : ∀ x ∈ d₁.boxes.values, ∀ q ∈ x.refs, q < t₁.objects.length := by
    intro x hx q hq
    rw [← Multiset.mem_coe, hboxes₁, hrest, Multiset.mem_add] at hx
    rcases hx with hx | hx
    · obtain ⟨a, ha, hcame⟩ := exists_of_rel hrel₁ hx
      exact (hcame.kept (hb.rooted a ha) hh hg₁).2.lt_of_ref hq
    · rw [Multiset.mem_coe, List.mem_singleton] at hx
      exact Nat.lt_of_lt_of_le (hc.refs_lt q (hx ▸ hq)) hg₁.length_le
  obtain ⟨t, d₂, hrun₂, hf₂, h₂⟩ := substitute_part hg₁ h₁.found h₁.proper hrefs₁ hc₁ hc
  obtain ⟨new₂, hrel₂, hboxes₂⟩ := h₂.boxes
  have hg₂ : Grows s t := .of_frame hf₂ hg₁ hh
  have hleft : ((d₁.boxes.remove 3).values : Multiset Value) = new₁ := by
    have hperm := Multiset.coe_eq_coe.mpr (Table.perm_values_of_get? h₁.proper.consistent.boxes_nodup hc₁)
    rw [hboxes₁, hrest, ← Multiset.cons_coe, ← Multiset.singleton_add, add_comm new₁] at hperm
    exact (add_left_cancel hperm).symm
  refine ⟨t, d₂, perform_bind_eq_ok.mpr ⟨(), t₁, hrun₁, hrun₂⟩, hg₂, h₂.found, h₂.proper,
    h₂.inputs.trans (h₁.inputs.trans hw.inputs), h₂.outputs.trans (h₁.outputs.trans hw.outputs), ?_⟩
  rw [hboxes₂, hleft, add_comm new₂]
  refine ((hrel₁.mono fun _ _ _ _ hcame => hcame.after hf₂).add hrel₂).mono fun a ha a' _ hcame => ?_
  exact hcame.kept ((Multiset.mem_add.mp ha).elim (hb.rooted a) (hc.rooted a)) hh hg₂

theorem enter_assembles (message : Value → Value → Note) (hw : Woven ins outs [b, c] W d)
    (hp : ∀ u, Grows s u → u.Proper d) (hb : s.Part b) (hc : s.Part c)
    (hname : ∃ name, s.boxName b = .ok name) (hname' : ∃ name, s.boxName c = .ok name) :
    ∃ t d', (enter s.objects.length b c message).perform (s.withNew d) = (.ok s.objects.length, t) ∧
      s.Assembles (s.parts b + s.parts c) ins outs t s.objects.length d' := by
  have hgrow := grows_withNew s d
  obtain ⟨name, hname⟩ := boxName_grows hgrow hname
  obtain ⟨name', hname'⟩ := boxName_grows hgrow hname'
  let s₁ : Store := { s.withNew d with notes := (s.withNew d).notes ++ [message name name'] }
  have hg₁ : Grows s s₁ := hgrow
  have hd₁ : s₁.diagram? s.objects.length = some d := diagram?_withNew s d
  obtain ⟨t, d', hrun, h⟩ := fill_parts hg₁ (Nat.le_refl _) hd₁ (hp s₁ hg₁) hw hb hc
  exact ⟨t, d', perform_enter hname hname' hrun, h⟩

theorem compose_assembles (hv : s.Ready v b ins mid) (hw : s.Ready w c mid' outs)
    (hsame : (Value.row mid).same (.row mid') = true) :
    ∃ t d, (compose v w).perform s = (.ok s.objects.length, t) ∧
      s.Assembles (s.parts b + s.parts c) ins outs t s.objects.length d := by
  rw [perform_compose hv.operand hw.operand]
  refine enter_assembles .composing (woven_inSequence ins outs b c mid.length) (fun u hg => ?_) hv.part hw.part
    hv.named hw.named
  have hk := keepsPorts_of_grows hg
  exact inSequence_proper (hv.input.keeps hk) (hv.output.keeps hk) (hw.input.keeps hk) (hw.output.keeps hk) hsame

theorem otimesBoxes_assembles (hv : s.Ready v b ins outs) (hw : s.Ready w c ins' outs') :
    ∃ t d, (otimesBoxes v w).perform s = (.ok s.objects.length, t) ∧
      s.Assembles (s.parts b + s.parts c) (ins ++ ins') (outs ++ outs') t s.objects.length d := by
  rw [perform_otimesBoxes hv.operand hw.operand]
  refine enter_assembles .tensoring (woven_sideBySide ins ins' outs outs' b c) (fun u hg => ?_) hv.part hw.part
    hv.named hw.named
  have hk := keepsPorts_of_grows hg
  exact sideBySide_proper (hv.input.keeps hk) (hv.output.keeps hk) (hw.input.keeps hk) (hw.output.keeps hk)

end Action

end StringDiagram
