import StringDiagram.Proofs.Category.Operations
import StringDiagram.Proofs.Store.Runs

/-! # Sessions

A session is any sequence of deeds: things are brought along, diagrams are made, copied, combined and
changed, with any arguments, and what is refused half way keeps what it had done. No deed leaves a diagram
in the store that is not consistent: `sound_session`. So what a query finds through the neighbours of a box
is what a scan of all wires would find: `session_queries`. -/
namespace StringDiagram
open Diagram

inductive Deed where
  | expression (e : Expression)
  | block (b : Block)
  | shape (k : Shape)
  | diagram (inputs outputs : Value)
  | copy (r : Ref)
  | call (r : Ref) (c : Call)
  | identity (a : Value)
  | braid (a b : Value)
  | generator (f : Value)
  | compose (f g : Value)
  | otimes (f g : Value)
deriving DecidableEq, Inhabited

def Deed.act : Deed → Action Unit
  | .expression e => do let _ ← Action.allocate (.expression e)
  | .block b => do let _ ← Action.allocate (.block b)
  | .shape k => do let _ ← Action.allocate (.shape k)
  | .diagram inputs outputs => do let _ ← Action.newDiagram inputs outputs
  | .copy r => modify fun s => (s.copy r).2
  | .call r c => c.on r
  | .identity a => do let _ ← Action.identity a
  | .braid a b => do let _ ← Action.braid a b
  | .generator f => do let _ ← Action.generator f
  | .compose f g => do let _ ← Action.compose f g
  | .otimes f g => do let _ ← Action.otimes f g

def Store.session (s : Store) (deeds : List Deed) : Store :=
  deeds.foldl (fun s deed => (deed.act.perform s).2) s

namespace Store
variable {s s' : Store}

def Sound (s : Store) : Prop := ∀ d, Object.diagram d ∈ s.objects → d.Consistent

theorem Sound.consistent (hs : s.Sound) {r : Ref} {d : Diagram} (hd : s.diagram? r = some d) : d.Consistent :=
  hs d (List.mem_of_getElem? (diagram?_eq_some.mp hd))

theorem Sound.append (hs : s.Sound) (os : List Object) (h : s'.objects = s.objects ++ os)
    (hos : ∀ d, Object.diagram d ∈ os → d.Consistent) : s'.Sound := by
  intro d hd
  rw [h] at hd
  exact (List.mem_append.mp hd).elim (hs d) (hos d)

theorem Sound.withNew (hs : s.Sound) {d : Diagram} (hd : d.Consistent) : (s.withNew d).Sound := by
  refine hs.append [.diagram d] rfl fun e he => ?_
  cases List.mem_singleton.mp he
  exact hd

/-- What is a copy of something consistent is consistent. -/
theorem Sound.append_copies (hs : s.Sound) {os : List Object} (h : s'.objects = s.objects ++ os)
    (hos : ∀ o ∈ os, ∃ p ∈ s.objects, ∃ f, p.rename f = o) : s'.Sound := by
  refine hs.append os h fun d hd => ?_
  obtain ⟨p, hp, f, hpf⟩ := hos _ hd
  cases p with
  | diagram e =>
    cases hpf
    exact (hs e hp).rename f
  | _ => cases hpf

theorem Sound.set (hs : s.Sound) {host : Ref} {d : Diagram} (hd : d.Consistent)
    (h : s'.objects = s.objects.set host (.diagram d)) : s'.Sound := by
  intro e he
  rw [h] at he
  rcases List.mem_or_eq_of_mem_set he with he | he
  · exact hs e he
  · cases he
    exact hd

theorem sound_tracks (host : Ref) : Tracks host fun s s' => s.Sound → s'.Sound where
  refl _ hs := hs
  trans h h' hs := h' (h hs)
  append h hos hs := hs.append_copies h hos
  set hd hdd' h hs := hs.set (hdd'.consistent (hs.consistent hd)) h

end Store

namespace Action
variable {α β : Type} {s : Store}

def Sound (a : Action α) : Prop := Keeps (fun s s' => s.Sound → s'.Sound) a

theorem Sound.bind {a : Action α} {f : α → Action β} (ha : a.Sound) (hf : ∀ x, (f x).Sound) :
    (a >>= f).Sound := keeps_bind (Store.sound_tracks 0) ha hf

theorem Sound.of_pure (x : α) : (pure x : Action α).Sound := keeps_pure (Store.sound_tracks 0) x

theorem Sound.of_ask (question : Store → Except Fault α) : (ask question).Sound :=
  keeps_ask (Store.sound_tracks 0) question

theorem sound_allocate {o : Object} (h : ∀ d, o = .diagram d → d.Consistent) : (allocate o).Sound := by
  intro s hs
  refine hs.append [o] rfl fun d hd => ?_
  exact h d (List.mem_singleton.mp hd).symm

theorem sound_newDiagram (inputs outputs : Value) : (newDiagram inputs outputs).Sound := by
  refine (Sound.of_ask _).bind fun ins => (Sound.of_ask _).bind fun outs => sound_allocate fun d hd => ?_
  cases hd
  exact consistent_new ins outs

theorem sound_identity (a : Value) : (identity a).Sound := by
  refine (Sound.of_ask _).bind fun as => sound_allocate fun d hd => ?_
  cases hd
  exact (bare_straight as).1.consistent

theorem sound_braid (a b : Value) : (braid a b).Sound := by
  refine (Sound.of_ask _).bind fun as => (Sound.of_ask _).bind fun bs => sound_allocate fun d hd => ?_
  cases hd
  exact (bare_crossed as bs).1.consistent

/-- A question that is not answered ends the action. -/
theorem sound_answer {x : Except Fault α} {f : α → Action β} (hs : s.Sound)
    (h : ∀ a, x = .ok a → ((f a).perform s).2.Sound) : ((ofExcept x >>= f).perform s).2.Sound := by
  rw [perform_bind, perform_ofExcept]
  cases hx : x with
  | error e => exact hs
  | ok a => exact h a hx

/-- If a diagram is made, the action goes on with it. -/
theorem sound_made {inputs outputs : Value} {f : Ref → Action β} (hs : s.Sound)
    (h : ∀ ins outs, ((f s.objects.length).perform (s.withNew (new ins outs))).2.Sound) :
    ((newDiagram inputs outputs >>= f).perform s).2.Sound := by
  simp only [newDiagram, perform_bind, perform_ask]
  cases s.collect inputs with
  | error e => exact hs
  | ok ins =>
    dsimp only
    cases s.collect outputs with
    | error e => exact hs
    | ok outs => exact h ins outs

theorem sound_generator (f : Value) : (generator f).Sound := by
  intro s hs
  unfold generator
  rw [perform_bind, perform_get]
  refine sound_answer hs fun box _ => sound_answer hs fun inputs _ => sound_answer hs fun outputs _ =>
    sound_made hs fun ins outs => ?_
  rw [perform_bind, perform_insertBox_withNew]
  have hbox := (consistent_new ins outs).addBox box
  have hlive : ((new ins outs).addBox box).live = [0, 1, 2] := rfl
  refine sound_answer (hs.withNew hbox) fun m _ => ?_
  simp only [perform_bind, perform_diagram_withNew, perform_replace_withNew]
  obtain ⟨hin, hr, -⟩ := connect_spec hbox (a := inputId) (b := 2) (by simp [hlive, inputId])
    (by simp [hlive]) 0 0 m
  have hlive' := hr.live_eq.trans hlive
  have hout := fun n => (connect_spec hin (a := 2) (b := outputId) (by simp [hlive'])
    (by simp [hlive', outputId]) 0 0 n).1
  cases outputs.length with
  | error e => exact hs.withNew hin
  | ok n =>
    simp only [perform_ofExcept, perform_diagram_withNew, perform_replace_withNew]
    exact hs.withNew (hout n)

theorem sound_enter (host : Ref) (p q : Value) (message : Value → Value → Note) :
    (enter host p q message).Sound := by
  have htracks := Store.sound_tracks host
  have hsubstitute : ∀ n : Nat, (substitute host (.ofNat n) .null).Sound := fun n =>
    keeps_substitute htracks (.ofNat n) .null
  refine (Sound.of_ask _).bind fun name => (Sound.of_ask _).bind fun name' => ?_
  refine Sound.bind (keeps_note htracks (message name name')) fun _ => ?_
  exact (hsubstitute 2).bind fun _ => (hsubstitute 3).bind fun _ => Sound.of_pure host

theorem sound_compose (f g : Value) : (compose f g).Sound := by
  intro s hs
  unfold compose
  rw [perform_bind, perform_get]
  refine sound_answer hs fun p _ => sound_answer hs fun q _ => sound_answer hs fun dom _ =>
    sound_answer hs fun codom _ => ?_
  simp only [perform_bind, perform_allocate_diagram, perform_insertBox_withNew, perform_ofExcept]
  cases s.codom p with
  | error e => exact hs.withNew (scaffold_new dom codom p q).consistent
  | ok middle =>
    simp only [perform_diagram_withNew, perform_replace_withNew]
    have h := sound_enter s.objects.length p q .composing _
      (hs.withNew (scaffold_inSequence dom codom p q middle.length).1.consistent)
    simp only [enter, perform_bind] at h
    exact h

theorem sound_otimesBoxes (f g : Value) : (otimesBoxes f g).Sound := by
  intro s hs
  unfold otimesBoxes
  rw [perform_bind, perform_get]
  refine sound_answer hs fun p _ => sound_answer hs fun q _ => sound_answer hs fun dom _ =>
    sound_answer hs fun dom' _ => sound_answer hs fun codom _ => sound_answer hs fun codom' _ => ?_
  simp only [perform_bind, perform_allocate_diagram, perform_insertBox_withNew, perform_diagram_withNew,
    perform_replace_withNew]
  have h := sound_enter s.objects.length p q .tensoring _
    (hs.withNew (scaffold_sideBySide dom dom' codom codom' p q).1.consistent)
  simp only [enter, perform_bind] at h
  exact h

theorem sound_otimes (f g : Value) : (otimes f g).Sound := by
  unfold otimes
  split
  · exact Sound.of_pure _
  · exact (sound_otimesBoxes f g).bind fun _ => Sound.of_pure _

end Action

theorem Deed.sound (deed : Deed) : deed.act.Sound := by
  cases deed with
  | expression e => exact (Action.sound_allocate (o := .expression e) nofun).bind fun _ => .of_pure _
  | block b => exact (Action.sound_allocate (o := .block b) nofun).bind fun _ => .of_pure _
  | shape k => exact (Action.sound_allocate (o := .shape k) nofun).bind fun _ => .of_pure _
  | diagram inputs outputs => exact (Action.sound_newDiagram inputs outputs).bind fun _ => .of_pure _
  | copy r =>
    intro s hs
    have hcopied : (s.copy r).2.Sound := hs.append_copies rfl fun _ => Store.mem_copies
    exact hcopied
  | call r c => exact c.keeps (Store.sound_tracks r)
  | identity a => exact (Action.sound_identity a).bind fun _ => .of_pure _
  | braid a b => exact (Action.sound_braid a b).bind fun _ => .of_pure _
  | generator f => exact (Action.sound_generator f).bind fun _ => .of_pure _
  | compose f g => exact (Action.sound_compose f g).bind fun _ => .of_pure _
  | otimes f g => exact (Action.sound_otimes f g).bind fun _ => .of_pure _

namespace Store
variable {s : Store}

theorem sound_session (hs : s.Sound) (deeds : List Deed) : (s.session deeds).Sound := by
  induction deeds generalizing s with
  | nil => exact hs
  | cons deed deeds ih => exact ih (deed.sound s hs)

/-- The wires at a port of a diagram, whatever was done before, are exactly those that a scan of all wires
finds there, in the order of that scan. The box of the port has to be there, or be of the boundary. -/
theorem session_queries (deeds : List Deed) {r : Ref} {d : Diagram} (hd : (empty.session deeds).diagram? r = some d)
    {v : Value} {c : Connector} (hv : v.connector? = some c) {n : Nat} (hc : c.box.boxId? = some n)
    (hn : n = inputId ∨ n = outputId ∨ n ∈ d.boxes.keys) :
    (empty.session deeds).inWires d v = .ok (d.wires.filter fun w => w.target.same c) ∧
      (empty.session deeds).outWires d v = .ok (d.wires.filter fun w => w.source.same c) := by
  have hempty : empty.Sound := fun _ h => absurd h List.not_mem_nil
  have hcd := (sound_session hempty deeds).consistent hd
  have hlive : n ∈ d.live := by simpa [live] using hn
  constructor
  · simpa only [inWires, hv] using inWires_eq hcd hc hlive
  · simpa only [outWires, hv] using outWires_eq hcd hc hlive

/-- A diagram with two wires from a box to itself, of which one was taken away, and a wire through the box that
came last. A copy of the diagram was put into a composite meanwhile, and a wire to a box that is not there was
refused. -/
theorem session_queries_looped :
    let f : Value := .atomic (.hom (.text "f") [] [])
    let wire : Nat → Nat → Nat → Nat → Value := fun a i b j =>
      .list [.list [.ofNat a, .ofNat i], .list [.ofNat b, .ofNat j]]
    let deeds : List Deed := [.diagram (.list []) (.list []), .call 0 (.addBox f),
      .call 0 (.addWire (wire 2 0 2 0)), .call 0 (.addWire (wire 2 1 2 0)), .copy 0, .compose (.ref 0) (.ref 1),
      .call 0 (.addBox f), .call 0 (.addWire (wire 3 0 2 0)), .call 0 (.addWire (wire 7 0 2 0)),
      .call 0 (.removeWire (wire 2 0 2 0)), .call 0 (.addWire (wire 0 0 2 0))]
    let s := empty.session deeds
    ∃ d, s.diagram? 0 = some d ∧
      s.inWires d (.connector (.ofNat 2) (.side .input) (.truth false)) =
        .ok [.ofPorts 2 1 2 0, .ofPorts 3 0 2 0, .ofPorts 0 0 2 0] ∧
      s.outWires d (.connector (.truth false) (.side .output) (.ofNat 0)) = .ok [.ofPorts 0 0 2 0] := by
  intro f wire deeds s
  have hwires : (s.diagram? 0).map (fun d => (d.wires, d.boxes.keys)) =
      some ([.ofPorts 2 1 2 0, .ofPorts 3 0 2 0, .ofPorts 0 0 2 0], [2, 3]) := by decide +kernel
  obtain ⟨d, hd, hfound⟩ := Option.map_eq_some_iff.mp hwires
  obtain ⟨hw, hkeys⟩ := Prod.mk.inj hfound
  refine ⟨d, hd, ?_, ?_⟩
  · have h := session_queries deeds hd (v := .connector (.ofNat 2) (.side .input) (.truth false)) rfl rfl
      (Or.inr (Or.inr (by simp [hkeys])))
    rw [hw] at h
    exact h.1
  · have h := session_queries deeds hd (v := .connector (.truth false) (.side .output) (.ofNat 0)) rfl rfl
      (Or.inl rfl)
    rw [hw] at h
    exact h.2

end Store
end StringDiagram
