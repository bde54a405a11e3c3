import StringDiagram.Proofs.Category.Laws
import StringDiagram.Proofs.Linear.Assembled

/-! # Composites

A composite is a term of the category with boxes and expressions as its leaves. If its types fit, then what is
built of it has the rows that the typing rules say and exactly the boxes of its leaves, and it is valid and
linear: `build_makes`. The names of operands have to be written for this, and nested diagrams to be copied
without a change of their rows; `build_fails` shows that neither goes without saying. -/
namespace StringDiagram
open Diagram Store

inductive Composite where
  | identity (a : Value)
  | braid (a b : Value)
  /-- The diagram with a single box. -/
  | generator (f : Value)
  /-- A box that is no diagram, or an expression, as it is. -/
  | bare (f : Value)
  | compose (a b : Composite)
  | otimes (a b : Composite)

namespace Composite

def build : Composite → Action Value
  | .identity a => do return .ref (← Action.identity a)
  | .braid a b => do return .ref (← Action.braid a b)
  | .generator f => do return .ref (← Action.generator f)
  | .bare f => return f
  | .compose a b => do
    let f ← a.build
    let g ← b.build
    return .ref (← Action.compose f g)
  | .otimes a b => do
    let f ← a.build
    let g ← b.build
    Action.otimes f g

def leaves : Composite → List Value
  | .identity _ | .braid _ _ => []
  | .generator f | .bare f => [f]
  | .compose a b | .otimes a b => a.leaves ++ b.leaves

def Operands (P : Composite → Prop) : Composite → Prop
  | .identity _ | .braid _ _ | .generator _ | .bare _ => True
  | .compose a b | .otimes a b => P a ∧ P b ∧ a.Operands P ∧ b.Operands P

end Composite

namespace Store

/-- The typing rules. Where two terms are composed, the rows between them are the same. -/
inductive Typed (s : Store) : Composite → List Value → List Value → Prop
  | identity {a : Value} {as : List Value} (h : s.collect a = .ok as) : Typed s (.identity a) as as
  | braid {a b : Value} {as bs : List Value} (h : s.collect a = .ok as) (h' : s.collect b = .ok bs) :
    Typed s (.braid a b) (as ++ bs) (bs ++ as)
  | generator {f b : Value} {ins outs : List Value} (h : s.boxOrAtomic f = .ok b)
    (hi : s.Reads .input b ins) (ho : s.Reads .output b outs) : Typed s (.generator f) ins outs
  | bare {f b : Value} {ins outs : List Value} (h : s.boxOrAtomic f = .ok b) (hn : s.asDiagram? b = none)
    (hi : s.Reads .input b ins) (ho : s.Reads .output b outs) : Typed s (.bare f) ins outs
  | compose {a b : Composite} {ins mid mid' outs : List Value} (ha : Typed s a ins mid)
    (hb : Typed s b mid' outs) (hsame : (Value.row mid).same (.row mid') = true) :
    Typed s (.compose a b) ins outs
  | otimes {a b : Composite} {ins ins' outs outs' : List Value} (ha : Typed s a ins outs)
    (hb : Typed s b ins' outs') : Typed s (.otimes a b) (ins ++ ins') (outs ++ outs')

/-- The name of what a term stands for can be written. -/
def Named (s : Store) : Composite → Prop
  | .bare f => ∃ b name, s.boxOrAtomic f = .ok b ∧ s.boxName b = .ok name
  | a => ∃ ins outs, s.Typed a ins outs ∧ s.Writable ins ∧ s.Writable outs

/-- A nested diagram that the term itself brings along has the same rows when it is copied. -/
def Copied (s : Store) : Composite → Prop
  | .generator f => ∀ b, s.boxOrAtomic f = .ok b → s.Plain b
  | _ => True

/-- Building the term gives a diagram with these rows and with the boxes of the leaves, which is valid and
linear. -/
def Makes (s : Store) (a : Composite) (ins outs : List Value) : Prop :=
  ∃ t r d, a.build.perform s = (.ok (.ref r), t) ∧ t.diagram? r = some d ∧
    t.dom (.ref r) = .ok ins ∧ t.codom (.ref r) = .ok outs ∧
    Multiset.Rel (fun f b' => ∃ b, s.boxOrAtomic f = .ok b ∧ s.Kept b t b') a.leaves d.boxes.values ∧
    t.validate d = .ok () ∧ t.Linear d

variable {s t u : Store} {a a' : Composite} {v b b' f : Value} {ins outs ins' outs' : List Value} {r : Ref}
  {d : Diagram} {side : Side}

theorem Reads.unique {as bs : List Value} (h : s.Reads side b as) (h' : s.Reads side b bs) : as = bs := by
  obtain ⟨types, ht, he⟩ := h
  obtain ⟨types', ht', he'⟩ := h'
  obtain rfl := Except.ok.inj (ht.symm.trans ht')
  exact Option.some.inj (he.symm.trans he')

/-- The rows of a term are determined. -/
theorem Typed.unique (h : s.Typed a ins outs) (h' : s.Typed a ins' outs') : ins = ins' ∧ outs = outs' := by
  induction h generalizing ins' outs' with
  | identity h =>
    cases h' with
    | identity h' =>
      obtain rfl := Except.ok.inj (h.symm.trans h')
      exact ⟨rfl, rfl⟩
  | braid h₁ h₂ =>
    cases h' with
    | braid h₁' h₂' =>
      obtain rfl := Except.ok.inj (h₁.symm.trans h₁')
      obtain rfl := Except.ok.inj (h₂.symm.trans h₂')
      exact ⟨rfl, rfl⟩
  | generator h hi ho =>
    cases h' with
    | generator h' hi' ho' =>
      obtain rfl := Except.ok.inj (h.symm.trans h')
      exact ⟨hi.unique hi', ho.unique ho'⟩
  | bare h _ hi ho =>
    cases h' with
    | bare h' _ hi' ho' =>
      obtain rfl := Except.ok.inj (h.symm.trans h')
      exact ⟨hi.unique hi', ho.unique ho'⟩
  | compose _ _ _ iha ihb =>
    cases h' with
    | compose ha' hb' _ => exact ⟨(iha ha').1, (ihb hb').2⟩
  | otimes _ _ iha ihb =>
    cases h' with
    | otimes ha' hb' =>
      obtain ⟨rfl, rfl⟩ := iha ha'
      obtain ⟨rfl, rfl⟩ := ihb hb'
      exact ⟨rfl, rfl⟩

theorem refs_of_boxOrAtomic (h : s.boxOrAtomic v = .ok b) : b.refs = v.refs := by
  obtain ⟨answer, -, h⟩ := bind_eq_ok.mp h
  cases answer with
  | true => rw [Except.ok.inj h]
  | false => rw [← Except.ok.inj h, Value.refs]

theorem rooted_of_boxOrAtomic (h : s.boxOrAtomic v = .ok b) (hv : s.Rooted v) : s.Rooted b := by
  rintro q ⟨r, hr, hq⟩
  exact hv q ⟨r, refs_of_boxOrAtomic h ▸ hr, hq⟩

theorem boxOrAtomic_congr (h : ∀ q ∈ v.refs, t.objects[q]? = s.objects[q]?) :
    t.boxOrAtomic v = s.boxOrAtomic v := by
  have hbox : t.isBox v = s.isBox v := by
    cases v with
    | ref q => simp only [isBox, h q List.mem_cons_self]
    | atomic e =>
      cases e with
      | ref q => simp only [isBox, exprPorts, h q List.mem_cons_self]
      | _ => rfl
    | _ => rfl
  rw [boxOrAtomic, boxOrAtomic, hbox]

theorem boxOrAtomic_grows (hg : Grows s t) (h : s.boxOrAtomic v = .ok b)
    (hlt : ∀ q ∈ b.refs, q < s.objects.length) : t.boxOrAtomic v = .ok b := by
  rw [boxOrAtomic_congr fun q hq => hg.getElem? (hlt q (refs_of_boxOrAtomic h ▸ hq)), h]

/-- What a value collects is not looked up. -/
theorem collect_grows (t : Store) {as : List Value} (h : s.collect v = .ok as) : t.collect v = .ok as := by
  cases v with
  | ref q =>
    simp only [collect, elements] at h
    split at h <;> cases h
  | _ => exact h

theorem Kept.plain (h : s.Kept b t b') (hp : s.Plain b) : t.Plain b' := by
  intro r d hd side
  rcases h.1 with ⟨-, hn, -⟩ | ⟨hsome, f, hf, hcarries⟩
  · rw [hn] at hd
    cases hd
  · obtain ⟨⟨q, e⟩, he⟩ := Option.isSome_iff_exists.mp hsome
    obtain ⟨rfl, heq⟩ := asDiagram?_eq_some.mp he
    obtain ⟨rfl, hdr⟩ := asDiagram?_eq_some.mp hd
    obtain rfl : f q = r := Value.ref.inj hf
    have himage := hcarries.image q _ (reaches_ref.mpr .refl) (diagram?_eq_some.mp heq)
    rw [diagram?_eq_some.mp hdr, Option.some.injEq] at himage
    cases himage
    rw [row_rename, Value.refsAll_renameAll, hp q e he side]
    rfl

theorem Plain.grows (h : s.Plain b) (hg : Grows s t) (hlt : ∀ q ∈ b.refs, q < s.objects.length) : t.Plain b :=
  fun r d hd => h r d ((asDiagram?_grows hg hlt).symm.trans hd)

structure Made (s : Store) (a : Composite) (ins outs : List Value) (t : Store) (v b : Value) : Prop where
  box : t.boxOrAtomic v = .ok b
  input : t.Reads .input b ins
  output : t.Reads .output b outs
  refs_lt : ∀ q ∈ b.refs, q < t.objects.length
  proper : ∀ r d, t.asDiagram? b = some (r, d) → t.Proper d
  rooted : ∀ c ∈ t.parts b, t.Rooted c
  boxes : Multiset.Rel (fun f c => ∃ b, s.boxOrAtomic f = .ok b ∧ s.Kept b t c) a.leaves (t.parts b)
  named : s.Named a → ∃ name, t.boxName b = .ok name
  plain : s.Copied a → ∀ c ∈ t.parts b, t.Plain c
  diagram : (∀ f, a ≠ .bare f) → ∃ r d, v = .ref r ∧ t.diagram? r = some d

namespace Made

theorem lasts (h : s.Made a ins outs t v b) (hg : Grows t u) : s.Made a ins outs u v b := by
  have hk := keepsPorts_of_grows hg
  have hdiag := asDiagram?_grows hg h.refs_lt
  have hparts : u.parts b = t.parts b := by rw [parts, parts, hdiag]
  refine ⟨boxOrAtomic_grows hg h.box h.refs_lt, h.input.keeps hk, h.output.keeps hk,
    fun q hq => Nat.lt_of_lt_of_le (h.refs_lt q hq) hg.length_le, fun r d hd => ?_, fun c hc => ?_, ?_,
    fun hn => boxName_grows hg (h.named hn), fun hc c hmem => ?_, fun ht => ?_⟩
  · rw [hdiag] at hd
    refine (h.proper r d hd).grows hg fun c hc => h.rooted c ?_
    rw [parts, hd]
    exact hc
  · exact (h.rooted c (hparts ▸ hc)).grows hg
  · rw [hparts]
    refine h.boxes.mono fun _ _ c hc hkept => ?_
    obtain ⟨b, hb, hkept⟩ := hkept
    exact ⟨b, hb, hkept.trans (.of_grows hg (h.rooted c hc))⟩
  · rw [hparts] at hmem
    exact (h.plain hc c hmem).grows hg fun _ => (h.rooted c hmem).lt_of_ref
  · obtain ⟨r, d, hv, hd⟩ := h.diagram ht
    exact ⟨r, d, hv, hg.diagram? hd⟩

theorem ready (h : s.Made a ins outs t v b) (hn : s.Named a) (hc : s.Copied a) : t.Ready v b ins outs :=
  ⟨h.box, h.input, h.output, ⟨h.refs_lt, h.proper, h.rooted, h.plain hc⟩, h.named hn⟩

/-- A diagram that is the outcome of a term. -/
theorem of_diagram (hg : Grows s t) (htyped : s.Typed a ins outs) (htop : ∀ f, a ≠ .bare f)
    (hd : t.diagram? r = some d) (hp : t.Proper d) (hi : d.inputs = ins) (ho : d.outputs = outs)
    (hr : ∀ c ∈ d.boxes.values, t.Rooted c)
    (hb : Multiset.Rel (fun f c => ∃ b, s.boxOrAtomic f = .ok b ∧ s.Kept b t c) a.leaves d.boxes.values)
    (hc : s.Copied a → ∀ c ∈ d.boxes.values, t.Plain c) : s.Made a ins outs t (.ref r) (.ref r) := by
  subst hi ho
  have hparts := parts_of_diagram hd
  refine ⟨(operand_of_diagram hd).box, reads_of_diagram hd .input, reads_of_diagram hd .output, fun q hq => ?_,
    fun q e he => ?_, hparts ▸ hr, hparts ▸ hb, fun hn => ?_, fun h => hparts ▸ hc h, fun _ => ⟨r, d, rfl, hd⟩⟩
  · exact List.mem_singleton.mp hq ▸ lt_of_diagram? hd
  · obtain ⟨hq, he⟩ := asDiagram?_eq_some.mp he
    obtain rfl := Value.ref.inj hq
    exact Option.some.inj (hd.symm.trans he) ▸ hp
  · obtain ⟨ins', outs', htyped', hw, hw'⟩ : ∃ ins outs, s.Typed a ins outs ∧ s.Writable ins ∧ s.Writable outs := by
      cases a with
      | bare f => exact absurd rfl (htop f)
      | _ => exact hn
    obtain ⟨rfl, rfl⟩ := htyped.unique htyped'
    obtain ⟨name, hname⟩ := named_iff.mpr ⟨hw.grows hg, hw'.grows hg⟩
    exact ⟨.text name, by simp only [boxName, diagram?_eq_some.mp hd, hname]; rfl⟩

end Made

def Succeeds (s : Store) (a : Composite) (ins outs : List Value) : Prop :=
  ∀ t, Grows s t → ∃ u v b, a.build.perform t = (.ok v, u) ∧ Grows t u ∧ s.Made a ins outs u v b

theorem succeeds_bare (h : s.boxOrAtomic f = .ok b) (hn : s.asDiagram? b = none) (hi : s.Reads .input b ins)
    (ho : s.Reads .output b outs) (hf : s.Rooted f) : s.Succeeds (.bare f) ins outs := by
  intro t hg
  have hk := keepsPorts_of_grows hg
  have hb : s.Rooted b := rooted_of_boxOrAtomic h hf
  have hlt : ∀ q ∈ b.refs, q < s.objects.length := fun _ => hb.lt_of_ref
  have hn' := (asDiagram?_grows hg hlt).trans hn
  have hparts := parts_of_not_diagram hn'
  refine ⟨t, f, b, rfl, .refl t, boxOrAtomic_grows hg h hlt, hi.keeps hk, ho.keeps hk,
    fun _ => (hb.grows hg).lt_of_ref, fun r d hd => ?_, fun c hc => ?_, ?_, fun ⟨b', name, hb', hname⟩ => ?_,
    fun _ c hc r d hd => ?_, fun htop => absurd rfl (htop f)⟩
  · rw [hn'] at hd
    cases hd
  · rw [hparts, Multiset.mem_singleton] at hc
    exact hc ▸ hb.grows hg
  · rw [hparts]
    exact .cons ⟨b, h, .of_grows hg hb⟩ .zero
  · obtain rfl := Except.ok.inj (h.symm.trans hb')
    exact boxName_grows hg ⟨name, hname⟩
  · rw [hparts, Multiset.mem_singleton] at hc
    rw [hc, hn'] at hd
    cases hd

end Store

namespace Action
variable {t : Store} {f b : Value} {ins outs : List Value}

theorem perform_generator (h : t.boxOrAtomic f = .ok b) (hi : t.Lists .input b ins)
    (ho : t.Lists .output b outs) :
    (generator f).perform t = (.ok t.objects.length, t.withNew (solo ins outs b)) := by
  obtain ⟨types, hports, hcollect, hlen⟩ := hi
  obtain ⟨types', hports', hcollect', hlen'⟩ := ho
  simp only [generator, newDiagram, perform_bind, perform_get, perform_ofExcept, perform_ask, h, hports, hports',
    hcollect, hcollect', hlen, hlen', perform_allocate_diagram, perform_insertBox_withNew, perform_diagram_withNew,
    perform_replace_withNew]
  rfl

end Action

namespace Store
variable {s t : Store} {a b : Composite} {f v : Value} {as bs ins ins' mid mid' outs outs' : List Value}

theorem succeeds_of_new {d : Diagram} (htyped : s.Typed a ins outs) (htop : ∀ f, a ≠ .bare f)
    (hrun : ∀ t, Grows s t → a.build.perform t = (.ok (.ref t.objects.length), t.withNew d))
    (hp : ∀ t, Grows s t → t.Proper d) (hi : d.inputs = ins) (ho : d.outputs = outs)
    (hr : ∀ c ∈ d.boxes.values, s.Rooted c)
    (hb : ∀ t, Grows s t → Multiset.Rel (fun f c => ∃ b, s.boxOrAtomic f = .ok b ∧ s.Kept b t c) a.leaves d.boxes.values)
    (hc : s.Copied a → ∀ c ∈ d.boxes.values, s.Plain c) : s.Succeeds a ins outs := by
  intro t hg
  have hg' := hg.trans (grows_withNew t d)
  refine ⟨_, _, _, hrun t hg, grows_withNew t d, .of_diagram hg' htyped htop (diagram?_withNew t d) (hp _ hg') hi ho
    (fun c hc => (hr c hc).grows hg') (hb _ hg') fun h c hmem => ?_⟩
  exact (hc h c hmem).grows hg' fun _ => (hr c hmem).lt_of_ref

theorem succeeds_identity {x : Value} (h : s.collect x = .ok as) : s.Succeeds (.identity x) as as := by
  have hw := woven_straight as
  refine succeeds_of_new (.identity h) (fun _ => nofun) (fun t _ => ?_) (fun t _ => straight_proper t as) hw.inputs
    hw.outputs (by simp [hw.boxes, Table.values]) (fun t _ => ?_) (by simp [hw.boxes, Table.values])
  · simp only [Composite.build, Action.identity, Action.perform_bind, Action.perform_ask, collect_grows t h]
    rfl
  · rw [hw.boxes]
    exact .zero

theorem succeeds_braid {x y : Value} (h : s.collect x = .ok as) (h' : s.collect y = .ok bs) :
    s.Succeeds (.braid x y) (as ++ bs) (bs ++ as) := by
  have hw := woven_crossed as bs
  refine succeeds_of_new (.braid h h') (fun _ => nofun) (fun t _ => ?_) (fun t _ => crossed_proper t as bs) hw.inputs
    hw.outputs (by simp [hw.boxes, Table.values]) (fun t _ => ?_) (by simp [hw.boxes, Table.values])
  · simp only [Composite.build, Action.braid, Action.perform_bind, Action.perform_ask, collect_grows t h,
      collect_grows t h']
    rfl
  · rw [hw.boxes]
    exact .zero

theorem succeeds_generator {b : Value} (h : s.boxOrAtomic f = .ok b) (hi : s.Reads .input b ins)
    (ho : s.Reads .output b outs) (hf : s.Rooted f) : s.Succeeds (.generator f) ins outs := by
  have hw := woven_solo ins outs b
  have hb := rooted_of_boxOrAtomic h hf
  have hvalues : (solo ins outs b).boxes.values = [b] := by rw [hw.boxes]; rfl
  refine succeeds_of_new (.generator h hi ho) (fun _ => nofun) (fun t hg => ?_) (fun t hg => ?_) hw.inputs
    hw.outputs (fun c hc => ?_) (fun t hg => ?_) fun hc c hmem => ?_
  · have hk := keepsPorts_of_grows hg
    have hbox := boxOrAtomic_grows hg h fun _ => hb.lt_of_ref
    rw [Composite.build, Action.perform_bind, Action.perform_generator hbox (hi.keeps hk).lists (ho.keeps hk).lists]
    rfl
  · have hk := keepsPorts_of_grows hg
    exact solo_proper (hi.keeps hk) (ho.keeps hk)
  · rw [hvalues, List.mem_singleton] at hc
    exact hc ▸ hb
  · rw [hvalues]
    exact .cons ⟨b, h, .of_grows hg hb⟩ .zero
  · rw [hvalues, List.mem_singleton] at hmem
    exact hmem ▸ hc b h

/-- What two terms stand for can be put together, and this is what the two terms are together. -/
theorem made_of_assembles {u : Store} {x y v' w' : Value} {c : Composite} {r : Ref} {d : Diagram}
    (htyped : s.Typed c ins outs) (htop : ∀ f, c ≠ .bare f) (hleaves : c.leaves = a.leaves ++ b.leaves)
    (hg : Grows s u) (ha : s.Made a as bs u v' x) (hb : s.Made b ins' outs' u w' y) (hca : s.Copied a)
    (hcb : s.Copied b) (h : u.Assembles (u.parts x + u.parts y) ins outs t r d) :
    s.Made c ins outs t (.ref r) (.ref r) := by
  refine .of_diagram (hg.trans h.grows) htyped htop h.found h.proper h.inputs h.outputs (fun c hc => ?_) ?_
    fun _ c hc => ?_
  · obtain ⟨_, -, -, hr⟩ := exists_of_rel h.boxes hc
    exact hr
  · rw [hleaves, ← Multiset.coe_add]
    refine (rel_comp (ha.boxes.add hb.boxes) h.boxes).mono fun f _ c _ hfc => ?_
    obtain ⟨m, ⟨e, he, hkept⟩, hkept', -⟩ := hfc
    exact ⟨e, he, hkept.trans hkept'⟩
  · obtain ⟨m, hm, hkept, -⟩ := exists_of_rel h.boxes hc
    exact hkept.plain ((Multiset.mem_add.mp hm).elim (ha.plain hca m) (hb.plain hcb m))

/-- Both operands of an operation are built, and the first is as it was when the second is there. -/
theorem Succeeds.both (ha : s.Succeeds a ins outs) (hb : s.Succeeds b ins' outs') (hg : Grows s t) :
    ∃ u v x w y u₁, a.build.perform t = (.ok v, u₁) ∧ b.build.perform u₁ = (.ok w, u) ∧ Grows t u ∧
      s.Made a ins outs u v x ∧ s.Made b ins' outs' u w y := by
  obtain ⟨u₁, v, x, hrun, hg₁, hmade⟩ := ha t hg
  obtain ⟨u, w, y, hrun', hg₂, hmade'⟩ := hb u₁ (hg.trans hg₁)
  exact ⟨u, v, x, w, y, u₁, hrun, hrun', hg₁.trans hg₂, hmade.lasts hg₂, hmade'⟩

/-- A row is no operand. -/
theorem not_reads_of_row {u : Store} {side : Side} {x : Value} (h : u.boxOrAtomic (.row as) = .ok x) :
    ¬ u.Reads side x ins := by
  obtain rfl : Value.atomic (.row as) = x := Except.ok.inj h
  rintro ⟨types, hports, -⟩
  cases hports

theorem Typed.succeeds (h : s.Typed a ins outs) (hroot : ∀ f ∈ a.leaves, s.Rooted f)
    (hop : a.Operands fun c => s.Named c ∧ s.Copied c) : s.Succeeds a ins outs := by
  induction h with
  | identity h => exact succeeds_identity h
  | braid h h' => exact succeeds_braid h h'
  | generator h hi ho => exact succeeds_generator h hi ho (hroot _ List.mem_cons_self)
  | bare h hn hi ho => exact succeeds_bare h hn hi ho (hroot _ List.mem_cons_self)
  | @compose a b ins mid mid' outs ha hb hsame iha ihb =>
    obtain ⟨⟨hna, hca⟩, ⟨hnb, hcb⟩, hopa, hopb⟩ := hop
    intro t hg
    obtain ⟨u, v, x, w, y, u₁, hrun, hrun', hgu, hma, hmb⟩ :=
      (iha (fun f hf => hroot f (List.mem_append_left _ hf)) hopa).both
        (ihb (fun f hf => hroot f (List.mem_append_right _ hf)) hopb) hg
    obtain ⟨t', d, hcomp, h⟩ := Action.compose_assembles (hma.ready hna hca) (hmb.ready hnb hcb) hsame
    refine ⟨t', _, _, ?_, hgu.trans h.grows, made_of_assembles (.compose ha hb hsame) (fun _ => nofun) rfl
      (hg.trans hgu) hma hmb hca hcb h⟩
    exact Action.perform_bind_eq_ok.mpr ⟨v, u₁, hrun, Action.perform_bind_eq_ok.mpr ⟨w, u, hrun',
      Action.perform_bind_eq_ok.mpr ⟨_, t', hcomp, rfl⟩⟩⟩
  | @otimes a b ins ins' outs outs' ha hb iha ihb =>
    obtain ⟨⟨hna, hca⟩, ⟨hnb, hcb⟩, hopa, hopb⟩ := hop
    intro t hg
    obtain ⟨u, v, x, w, y, u₁, hrun, hrun', hgu, hma, hmb⟩ :=
      (iha (fun f hf => hroot f (List.mem_append_left _ hf)) hopa).both
        (ihb (fun f hf => hroot f (List.mem_append_right _ hf)) hopb) hg
    obtain ⟨t', d, hcomp, h⟩ := Action.otimesBoxes_assembles (hma.ready hna hca) (hmb.ready hnb hcb)
    refine ⟨t', _, _, ?_, hgu.trans h.grows, made_of_assembles (.otimes ha hb) (fun _ => nofun) rfl
      (hg.trans hgu) hma hmb hca hcb h⟩
    have hotimes : Action.otimes v w = (do return .ref (← Action.otimesBoxes v w)) := by
      cases v with
      | row as => exact absurd hma.input (not_reads_of_row hma.box)
      | _ => rfl
    refine Action.perform_bind_eq_ok.mpr ⟨v, u₁, hrun, Action.perform_bind_eq_ok.mpr ⟨w, u, hrun', ?_⟩⟩
    rw [hotimes]
    exact Action.perform_bind_eq_ok.mpr ⟨_, t', hcomp, rfl⟩

end Store

/-- A term whose types fit makes a diagram without fault, if the names of all operands can be written and the
nested diagrams among them can be copied. The references in its leaves lead to nothing that is missing. -/
theorem build_makes {s : Store} {a : Composite} {ins outs : List Value} (h : s.Typed a ins outs)
    (htop : ∀ f, a ≠ .bare f) (hroot : ∀ f ∈ a.leaves, s.Rooted f)
    (hop : a.Operands fun c => s.Named c ∧ s.Copied c) : s.Makes a ins outs := by
  obtain ⟨t, v, b, hrun, -, hmade⟩ := h.succeeds hroot hop s (.refl s)
  obtain ⟨r, d, rfl, hd⟩ := hmade.diagram htop
  have hop := operand_of_diagram hd
  obtain rfl : Value.ref r = b := Except.ok.inj (hop.box.symm.trans hmade.box)
  have hproper := hmade.proper r d (asDiagram?_eq_some.mpr ⟨rfl, hd⟩)
  have hi : d.inputs = ins := (reads_of_diagram hd .input).unique hmade.input
  have ho : d.outputs = outs := (reads_of_diagram hd .output).unique hmade.output
  exact ⟨t, r, d, hrun, hd, hi ▸ hop.dom, ho ▸ hop.codom, parts_of_diagram hd ▸ hmade.boxes, hproper.valid,
    hproper.linear⟩

def Composite.mixed : Composite :=
  let a := Value.object "A"
  .compose (.otimes (.generator (.ref 0)) (.bare (.hom (.text "f") [a] [a]))) (.braid (.row [a]) (.row [a]))

theorem build_makes_mixed :
    let a := Value.object "A"
    Store.Makes ⟨[.diagram (straight [a])], []⟩ .mixed [a, a] [a, a] := by
  intro a
  let s : Store := ⟨[.diagram (straight [a])], []⟩
  have hs : s.Closed := closed_of_forall (by decide)
  have hwrite : s.Writable [a] ∧ s.Writable [a, a] := ⟨⟨_, rfl⟩, _, rfl⟩
  have hreads : ∀ side, s.Reads side (.ref 0) [a] ∧ s.Reads side (.atomic (.hom (.text "f") [a] [a])) [a] :=
    fun side => by cases side <;> exact ⟨⟨_, rfl, rfl⟩, _, rfl, rfl⟩
  have hgen : s.Typed (.generator (.ref 0)) [a] [a] := .generator rfl (hreads .input).1 (hreads .output).1
  have hbare : s.Typed (.bare (.hom (.text "f") [a] [a])) [a] [a] :=
    .bare rfl rfl (hreads .input).2 (hreads .output).2
  have hrow : s.collect (.row [a]) = .ok [a] := rfl
  have hbraid : s.Typed (.braid (.row [a]) (.row [a])) [a, a] [a, a] := .braid hrow hrow
  have hplain : s.Plain (.ref 0) := fun r d hd side => by
    obtain ⟨hr, hd⟩ := asDiagram?_eq_some.mp hd
    obtain rfl := Value.ref.inj hr
    cases hd
    cases side <;> rfl
  refine build_makes (.compose (.otimes hgen hbare) hbraid rfl) (fun _ => nofun) (fun f hf q hq => ?_)
    ⟨⟨⟨_, _, .otimes hgen hbare, hwrite.2, hwrite.2⟩, trivial⟩, ⟨⟨_, _, hbraid, hwrite.2, hwrite.2⟩, trivial⟩,
      ⟨⟨⟨_, _, hgen, hwrite.1, hwrite.1⟩, fun b hb => ?_⟩, ⟨⟨_, _, rfl, rfl⟩, trivial⟩, trivial, trivial⟩, trivial⟩
  · refine hs.lt_of_reaches (fun r hr => ?_) hq
    rcases List.mem_pair.mp hf with rfl | rfl
    · rw [List.mem_singleton.mp hr]
      decide
    · cases hr
  · exact Except.ok.inj hb ▸ hplain

/-- Where the name of an operand cannot be written, the operation is refused; and where a nested diagram has a
type with an identity, its copy has another one, so that the wires to it are not valid. -/
theorem build_fails :
    (∃ a ins outs, Store.empty.Typed a ins outs ∧ (∀ f, a ≠ .bare f) ∧ (∀ f ∈ a.leaves, Store.empty.Rooted f) ∧
      a.Operands Store.empty.Copied ∧ ¬ Store.empty.Makes a ins outs) ∧
    ∃ a ins outs, marked.Typed a ins outs ∧ (∀ f, a ≠ .bare f) ∧ (∀ f ∈ a.leaves, marked.Rooted f) ∧
      a.Operands marked.Named ∧ ¬ marked.Makes a ins outs := by
  constructor
  · refine ⟨.compose (.identity (.row [.untold])) (.identity (.row [.untold])), _, _,
      .compose (.identity rfl) (.identity rfl) rfl, fun _ => nofun, nofun, ⟨trivial, trivial, trivial, trivial⟩, ?_⟩
    rintro ⟨t, r, d, hrun, -⟩
    have hfail : ((Composite.compose (.identity (.row [.untold])) (.identity (.row [.untold]))).build.perform
        Store.empty).1 = .error .missingAttribute := by decide +kernel
    rw [hrun] at hfail
    cases hfail
  · let a : Composite := .compose (.identity (.row [.ref 0])) (.generator (.ref 1))
    have hgen : marked.Typed (.generator (.ref 1)) [.ref 0] [] := .generator rfl ⟨_, rfl, rfl⟩ ⟨_, rfl, rfl⟩
    have hid : marked.Typed (.identity (.row [.ref 0])) [.ref 0] [.ref 0] := .identity rfl
    have hw : marked.Writable [.ref 0] ∧ marked.Writable [] := ⟨⟨_, rfl⟩, _, rfl⟩
    refine ⟨a, _, _, .compose hid hgen rfl, fun _ => nofun, fun f hf q hq => ?_,
      ⟨⟨_, _, hid, hw.1, hw.1⟩, ⟨_, _, hgen, hw.1, hw.2⟩, trivial, trivial⟩, ?_⟩
    · have hclosed : marked.Closed := closed_of_forall (by decide)
      refine hclosed.lt_of_reaches (fun r hr => ?_) hq
      rw [List.mem_singleton.mp hf] at hr
      rw [List.mem_singleton.mp hr]
      decide
    · rintro ⟨t, r, d, hrun, hd, -, -, -, hvalid, -⟩
      have hmade : (a.build.perform marked).1 = .ok (.ref 6) := by decide +kernel
      have hbad : ((a.build.perform marked).2.diagram? 6).any
          (fun d => ((a.build.perform marked).2.validate d).isOk) = false := by decide +kernel
      generalize a.build.perform marked = x at hrun hmade hbad
      subst hrun
      cases hmade
      rw [hd, Option.any_some, hvalid] at hbad
      cases hbad

end StringDiagram
