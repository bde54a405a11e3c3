import StringDiagram.Proofs.Category.Arrivals
import StringDiagram.Proofs.Category.Operations
import StringDiagram.Proofs.Store.Locality

/-! # Results of their own

The operations of the category change nothing that was there, and what they make shares no diagram with
it: the nested diagrams of both operands come in as copies, closed under all that these lead to, also in
circles. So what is done to the one later does not show in the other: `operation_apart`. -/
namespace StringDiagram
open Diagram

namespace Action
open Store
variable {s s₀ t : Store} {host p q h : Ref} {d f g : Diagram} {P : Plan}

/-- The nested diagrams of both operands came in, and nothing else is left of the scaffold's boxes. -/
theorem boxes_of_fill (hs : s.Closed) (hf : s.diagram? p = some f) (hg : s.diagram? q = some g)
    (hgrow : Grows s s₀) (hnew : s.objects.length ≤ host) (hd : s₀.diagram? host = some d)
    (hsc : Scaffold (.ref p) (.ref q) P d)
    (hrun : (do substitute host (.ofNat 2) .null; substitute host (.ofNat 3) .null).perform s₀ = (.ok (), t)) :
    Grows s t ∧ ∃ d', t.diagram? host = some d' ∧
      ∀ b' ∈ d'.boxes.values, ∃ b, s.Rooted b ∧ s.CameIn host t b b' := by
  obtain ⟨_, s₁, hrun₁, hrun₂⟩ := perform_bind_eq_ok.mp hrun
  have hbox : d.boxes.get? 2 = some (.ref p) := by rw [hsc.boxes]; rfl
  rw [perform_substitute hd (hgrow.diagram? hf) (Value.boxId?_ofNat 2) hbox (Or.inr ⟨rfl, rfl⟩)] at hrun₁
  obtain ⟨d₁, held, hd₁, hc₁, hf₁, hheld, hboxes₁⟩ :=
    inline_boxes hd (hgrow.diagram? hf) hsc.consistent hsc.mem_keys.1 hrun₁
  have hgrow₁ : Grows s s₁ := .of_frame hf₁ hgrow hnew
  have hbox' : d₁.boxes.get? 3 = some (.ref q) := by
    rw [hboxes₁, Table.get?_append, hsc.boxes]
    rfl
  rw [perform_substitute hd₁ (hgrow₁.diagram? hg) (Value.boxId?_ofNat 3) hbox' (Or.inr ⟨rfl, rfl⟩)] at hrun₂
  obtain ⟨d₂, held', hd₂, -, hf₂, hheld', hboxes₂⟩ :=
    inline_boxes hd₁ (hgrow₁.diagram? hg) hc₁ (Table.mem_keys_of_get? hbox') hrun₂
  have hin : ∀ b' ∈ held, ∃ b, s.Rooted b ∧ s.CameIn host t b b' := fun b' hb => by
    obtain ⟨b, hb, he⟩ := mem_of_forall₂ hheld hb
    exact ⟨b, hs.rooted_of_box hf hb, s₀, d, hgrow, hd, he.after hf₂⟩
  have hin' : ∀ b' ∈ held', ∃ b, s.Rooted b ∧ s.CameIn host t b b' := fun b' hb => by
    obtain ⟨b, hb, he⟩ := mem_of_forall₂ hheld' hb
    exact ⟨b, hs.rooted_of_box hg hb, s₁, d₁, hgrow₁, hd₁, he⟩
  have hempty : Table.remove (Table.remove [(2, Value.ref p), (3, .ref q)] 2) 3 = [] := rfl
  refine ⟨.of_frame hf₂ hgrow₁ hnew, d₂, hd₂, fun b hb => ?_⟩
  obtain ⟨⟨n, b⟩, he, rfl⟩ := List.mem_map.mp hb
  rw [hboxes₂, hboxes₁, hsc.boxes, Table.remove_append, hempty, List.nil_append, List.mem_append] at he
  rcases he with he | he
  · exact hin b (List.of_mem_zip (Table.mem_remove.mp he).1).2
  · exact hin' b (List.of_mem_zip he).2

/-- What an operation did if it succeeded. -/
theorem of_enter {b c : Value} {message : Value → Value → Note}
    (hrun : (enter host b c message).perform s = (.ok h, t)) : h = host ∧ ∃ s₀, s₀.objects = s.objects ∧
      (do substitute host (.ofNat 2) .null; substitute host (.ofNat 3) .null).perform s₀ = (.ok (), t) := by
  obtain ⟨name, s₁, h₁, hrun⟩ := perform_bind_eq_ok.mp hrun
  obtain ⟨name', s₂, h₂, hrun⟩ := perform_bind_eq_ok.mp hrun
  obtain ⟨_, s₃, h₃, hrun⟩ := perform_bind_eq_ok.mp hrun
  obtain ⟨_, s₄, h₄, hrun⟩ := perform_bind_eq_ok.mp hrun
  obtain ⟨_, s₅, h₅, hrun⟩ := perform_bind_eq_ok.mp hrun
  rw [perform_ask, Prod.mk.injEq] at h₁ h₂
  rw [perform_note, Prod.mk.injEq] at h₃
  rw [perform_pure, Prod.mk.injEq, Except.ok.injEq] at hrun
  refine ⟨hrun.1.symm, s₃, ?_, perform_bind_eq_ok.mpr ⟨_, s₄, h₄, hrun.2 ▸ h₅⟩⟩
  rw [← h₃.2, ← h₂.2, ← h₁.2]

/-- The outcome of an operation leads through its boxes to nothing that was there. -/
theorem nests_of_enter {message : Value → Value → Note} (hs : s.Closed) (hf : s.diagram? p = some f)
    (hg : s.diagram? q = some g) (hsc : Scaffold (.ref p) (.ref q) P d)
    (hrun : (enter s.objects.length (.ref p) (.ref q) message).perform (s.withNew d) = (.ok h, t)) :
    Grows s t ∧ h < t.objects.length ∧ ∀ r, t.Nests h r → s.objects.length ≤ r := by
  obtain ⟨rfl, s₀, hobj, hrun⟩ := of_enter hrun
  have hgrow₀ : Grows s s₀ := by
    rw [Grows, hobj]
    exact grows_withNew s d
  have hd₀ : s₀.diagram? s.objects.length = some d :=
    (diagram?_congr (congrArg (·[s.objects.length]?) hobj)).trans (diagram?_withNew s d)
  obtain ⟨hgrow, d', hd', hin⟩ := boxes_of_fill hs hf hg hgrow₀ (Nat.le_refl _) hd₀ hsc hrun
  refine ⟨hgrow, lt_of_diagram? hd', fun r hr => ?_⟩
  rcases hr.cases_box hd' with rfl | ⟨b, hb, hdiag, hreach⟩
  · exact Nat.le_refl _
  · obtain ⟨c, hc, hcame⟩ := hin b hb
    exact hcame.le_of_reaches hc hgrow (Nat.le_refl _) hdiag hreach

/-- The outcome of composition and of the product of two diagrams has nothing in common with them, however
diagrams are held in others, in themselves too. All that was there is as it was, all diagrams nested in the
outcome are new, and so runs of calls on what is new and on what was there do not show in each other. -/
theorem operation_apart (hs : s.Closed) (hf : s.diagram? p = some f) (hg : s.diagram? q = some g)
    (hrun : (compose (.ref p) (.ref q)).perform s = (.ok h, t) ∨
      (otimes (.ref p) (.ref q)).perform s = (.ok (.ref h), t)) :
    (∀ r < s.objects.length, t.objects[r]? = s.objects[r]?) ∧
    (∀ r, t.Nests h r → s.objects.length ≤ r ∧ r < t.objects.length) ∧
    (∀ r, t.Nests p r ∨ t.Nests q r → r < s.objects.length) ∧
    (∀ calls, (∀ c ∈ calls, s.objects.length ≤ c.1) → ∀ r < s.objects.length,
      (t.run calls).objects[r]? = s.objects[r]?) ∧
    ∀ calls, (∀ c ∈ calls, c.1 < s.objects.length ∨ t.objects.length ≤ c.1) → ∀ r, t.Nests h r →
      (t.run calls).objects[r]? = t.objects[r]? := by
  obtain ⟨hgrow, hlt, hnests⟩ : Grows s t ∧ h < t.objects.length ∧ ∀ r, t.Nests h r → s.objects.length ≤ r := by
    rcases hrun with hrun | hrun
    · rw [perform_compose (operand_of_diagram hf) (operand_of_diagram hg)] at hrun
      exact nests_of_enter hs hf hg (scaffold_inSequence _ _ _ _ _).1 hrun
    · obtain ⟨h', u, hmade, hret⟩ := perform_bind_eq_ok.mp hrun
      rw [perform_pure, Prod.mk.injEq, Except.ok.injEq, Value.ref.injEq] at hret
      obtain ⟨rfl, rfl⟩ := hret
      rw [perform_otimesBoxes (operand_of_diagram hf) (operand_of_diagram hg)] at hmade
      exact nests_of_enter hs hf hg (scaffold_sideBySide _ _ _ _ _ _).1 hmade
  have hsame : ∀ r < s.objects.length, t.objects[r]? = s.objects[r]? := fun r hr => hgrow.getElem? hr
  have hold : ∀ p f, s.diagram? p = some f → ∀ r, t.Nests p r → r < s.objects.length := by
    intro p f hp r hr
    have hroot : s.Rooted (.ref p) := fun x hx => hs.lt_of_reaches (fun y hy => by
      rw [List.mem_singleton.mp hy]
      exact lt_of_diagram? hp) hx
    exact hroot r ((hroot.reaches_iff hgrow).mp (reaches_ref.mpr hr.leads))
  refine ⟨hsame, fun r hr => ⟨hnests r hr, hr.lt hlt⟩, fun r hr => ?_, fun calls hcalls r hr => ?_,
    fun calls hcalls r hr => ?_⟩
  · exact hr.elim (hold p f hf r) (hold q g hg r)
  · rw [← hsame r hr]
    refine run_elsewhere (fun c hc => ?_) (Nat.lt_of_lt_of_le hr hgrow.length_le)
    exact Nat.ne_of_gt (Nat.lt_of_lt_of_le hr (hcalls c hc))
  · refine run_elsewhere (fun c hc => ?_) (hr.lt hlt)
    rcases hcalls c hc with hc | hc
    · exact Nat.ne_of_lt (Nat.lt_of_lt_of_le hc (hnests r hr))
    · exact Nat.ne_of_gt (Nat.lt_of_lt_of_le (hr.lt hlt) hc)

/-- Two diagrams that hold each other, the first also itself. -/
def entwined : Store :=
  let a := Value.object "A"
  ⟨[.diagram (wired [a] [a] [.ref 0, .ref 1] [.ofPorts 0 0 2 0, .ofPorts 2 0 3 0, .ofPorts 3 0 1 0]),
    .diagram (wired [a] [a] [.ref 0] [.ofPorts 0 0 2 0, .ofPorts 2 0 1 0])], []⟩

theorem operation_apart_entwined :
    let t := ((compose (.ref 0) (.ref 1)).perform entwined).2
    (∀ r < 2, t.objects[r]? = entwined.objects[r]?) ∧
    (∀ r, t.Nests 2 r → 2 ≤ r ∧ r < t.objects.length) ∧
    (∀ r, t.Nests 0 r ∨ t.Nests 1 r → r < 2) ∧
    (∀ calls, (∀ c ∈ calls, 2 ≤ c.1) → ∀ r < 2, (t.run calls).objects[r]? = entwined.objects[r]?) ∧
    ∀ calls, (∀ c ∈ calls, c.1 < 2 ∨ t.objects.length ≤ c.1) → ∀ r, t.Nests 2 r →
      (t.run calls).objects[r]? = t.objects[r]? :=
  operation_apart (s := entwined) (closed_of_forall (by decide +kernel)) rfl rfl
    (Or.inl (Prod.ext (by decide +kernel) rfl))

end Action

end StringDiagram
