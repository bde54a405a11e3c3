import StringDiagram.Proofs.Diagram.Listing

/-! # Revisions, one table at a time

A change of a diagram touches several tables, one after the other, and each access may be refused. A
revision is a run of such accesses, which keeps what was written before a refusal. On a consistent
diagram nothing is refused after the first write, so that each revision does what the change of that name
does, or nothing: `perform_addBox` to `perform_removeWires`. -/
namespace StringDiagram

abbrev Revision := ExceptT Fault (StateM Diagram)

namespace Revision
variable {α β : Type}

def perform (a : Revision α) (d : Diagram) : Except Fault α × Diagram := a.run.run d

def settle (d : Diagram) : Except Fault (α × Diagram) → Except Fault α × Diagram
  | .ok (a, d') => (.ok a, d')
  | .error e => (.error e, d)

def access (f : Diagram → Except Fault (α × Diagram)) : Revision α := do
  let d ← get
  match f d with
  | .ok (a, d') =>
    set d'
    return a
  | .error e => throw e

def read (f : Diagram → Except Fault α) : Revision α := access fun d => do return (← f d, d)

def write (f : Diagram → Except Fault Diagram) : Revision Unit := access fun d => do return ((), ← f d)

theorem perform_bind (a : Revision α) (f : α → Revision β) (d : Diagram) :
    perform (a >>= f) d = match perform a d with
      | (.ok x, d') => perform (f x) d'
      | (.error e, d') => (.error e, d') := by
  simp only [perform, ExceptT.run_bind, StateT.run_bind]
  rcases h : (ExceptT.run a).run d with ⟨r, d'⟩
  cases r <;> rfl

@[simp] theorem perform_pure (x : α) (d : Diagram) : perform (pure x) d = (.ok x, d) := rfl

theorem perform_access (f : Diagram → Except Fault (α × Diagram)) (d : Diagram) :
    perform (access f) d = settle d (f d) := by
  rw [access, perform_bind]
  change perform _ d = _
  rcases f d with e | ⟨a, d'⟩ <;> rfl

@[simp] theorem perform_read (f : Diagram → Except Fault α) (d : Diagram) : perform (read f) d = (f d, d) := by
  rw [read, perform_access]
  cases f d <;> rfl

theorem perform_write_ok {f : Diagram → Except Fault Diagram} {d d' : Diagram} (h : f d = .ok d') :
    perform (write f) d = (.ok (), d') := by
  rw [write, perform_access, h]
  rfl

theorem perform_write_error {f : Diagram → Except Fault Diagram} {d : Diagram} {e : Fault}
    (h : f d = .error e) : perform (write f) d = (.error e, d) := by
  rw [write, perform_access, h]
  rfl

/-- A loop whose steps are never refused. -/
theorem perform_forM {γ : Type} {body : γ → Revision Unit} {g : Diagram → γ → Diagram}
    (h : ∀ x d, (body x).perform d = (.ok (), g d x)) (xs : List γ) (d : Diagram) :
    (xs.forM body).perform d = (.ok (), xs.foldl g d) := by
  induction xs generalizing d with
  | nil => rfl
  | cons x xs ih =>
    change perform (body x >>= fun _ => xs.forM body) d = _
    rw [perform_bind, h]
    exact ih (g d x)

/-! ## The revisions -/

def addBox (box : Value) : Revision Nat := do
  let n ← read fun d => .ok d.next
  write fun d => .ok { d with next := d.next + 1 }
  write fun d => .ok { d with succ := d.succ.put n [] }
  write fun d => .ok { d with pred := d.pred.put n [] }
  write fun d => .ok { d with boxes := d.boxes.put n box }
  return n

def dropTarget (n u : Nat) : Revision Unit := do
  write fun d => .ok { d with edges := d.edges.remove (n, u) }
  write fun d => .ok { d with pred := d.pred.adjust u (·.remove n) }

def dropSource (n u : Nat) : Revision Unit := do
  write fun d => .ok { d with edges := d.edges.remove (u, n) }
  write fun d => .ok { d with succ := d.succ.adjust u (·.remove n) }

def removeBox (v : Value) : Revision Value := do
  read fun _ => if Diagram.isBoundary v then .error (.boundaryRemoval v) else .ok ()
  let (n, box) ← access fun d => do
    let (n, box) ← d.boxes.resolve v
    return ((n, box), { d with boxes := d.boxes.remove n })
  let out ← access fun d => do
    let (n, out) ← d.succ.resolve v
    return (out.keys, { d with succ := d.succ.remove n })
  out.forM (dropTarget n)
  let into ← access fun d => do
    let (n, into) ← d.pred.resolve v
    return (into.keys, { d with pred := d.pred.remove n })
  into.forM (dropSource n)
  return box

def addWire (w : Wire) : Revision Unit := do
  let (s, _) ← read fun d => d.succ.resolve w.source.box
  let (t, _) ← read fun d => d.pred.resolve w.target.box
  write fun d => do
    let (s, _) ← d.succ.resolve w.source.box
    return { d with succ := d.succ.adjust s (·.putNew t w.target.box) }
  write fun d => do
    let (t, _) ← d.pred.resolve w.target.box
    return { d with pred := d.pred.adjust t (·.putNew s w.source.box) }
  write fun d => .ok { d with edges := d.edges.put (s, t) (d.wiresOn (s, t) ++ [w]) }

def dropEdge (src tgt : Value) (d : Diagram) : Except Fault Diagram := do
  match ← Diagram.edge? src tgt with
  | some e =>
    if (d.edges.get? e).isSome then return { d with edges := d.edges.remove e }
    else .error (.missingKey (.tuple [src, tgt]))
  | none => .error (.missingKey (.tuple [src, tgt]))

def dropFromSucc (src tgt : Value) (d : Diagram) : Except Fault Diagram := do
  let (s, out) ← d.succ.resolve src
  let (t, _) ← Table.resolve out tgt
  return { d with succ := d.succ.adjust s (·.remove t) }

def dropFromPred (src tgt : Value) (d : Diagram) : Except Fault Diagram := do
  let (t, into) ← d.pred.resolve tgt
  let (s, _) ← Table.resolve into src
  return { d with pred := d.pred.adjust t (·.remove s) }

def removeEdge (src tgt : Value) : Revision Unit := do
  write (dropEdge src tgt)
  write (dropFromSucc src tgt)
  write (dropFromPred src tgt)

def takeWire (w : Wire) (d : Diagram) : Except Fault ((Nat × Nat) × Diagram) := do
  match ← Diagram.edge? w.source.box w.target.box with
  | none => .error (.wireNotFound w.toValue)
  | some e =>
    if (d.wiresOn e).any (·.same w) then
      return (e, { d with edges := d.edges.put e ((d.wiresOn e).eraseP (·.same w)) })
    else .error (.wireNotFound w.toValue)

def removeWire (w : Wire) : Revision Unit := do
  let e ← access (takeWire w)
  let rest ← read fun d => match d.edges.get? e with
    | some ws => .ok ws
    | none => .error (.missingKey (.tuple [w.source.box, w.target.box]))
  if rest = [] then removeEdge w.source.box w.target.box

end Revision

/-! ## What they come to -/

namespace Table
variable {κ α : Type} [DecidableEq κ]

theorem put_of_not_mem {t : Table κ α} {k : κ} (h : k ∉ t.keys) (a : α) : t.put k a = t ++ [(k, a)] := by
  induction t with
  | nil => rfl
  | cons e t ih =>
    rw [keys_cons, List.mem_cons, not_or] at h
    have hne : ¬ e.1 = k := fun he => h.1 he.symm
    rw [put, if_neg hne, ih h.2, List.cons_append]

theorem put_of_get? {t : Table κ α} {k : κ} {a : α} (h : t.get? k = some a) : t.put k a = t := by
  induction t with
  | nil => cases h
  | cons e t ih =>
    rw [get?_cons] at h
    rw [put]
    split at h
    · next he =>
      cases h
      rw [if_pos he]
    · next he => rw [if_neg he, ih h]

theorem remove_put (t : Table κ α) (k : κ) (a : α) : (t.put k a).remove k = t.remove k := by
  induction t with
  | nil => simp [put, remove]
  | cons e t ih =>
    rw [put]
    split
    · next he => simp [remove, he]
    · next he =>
      have hkept : ∀ u : Table κ α, remove (e :: u) k = e :: remove u k :=
        fun u => List.filter_cons_of_pos (by simpa using he)
      rw [hkept, hkept, ih]

theorem remove_adjust (t : Table κ α) (k k' : κ) (f : α → α) :
    (t.adjust k f).remove k' = (t.remove k').adjust k f := by
  rw [remove, adjust, List.filter_map, adjust, remove]
  congr 1
  apply List.filter_congr
  intro e _
  by_cases he : e.1 = k <;> simp [he]

theorem adjust_eq_self {t : Table κ α} {k : κ} (h : k ∉ t.keys) (f : α → α) : t.adjust k f = t := by
  have hid : ∀ e ∈ t, (if e.1 = k then (e.1, f e.2) else e) = e := by
    intro e he
    have hne : ¬ e.1 = k := fun hk => h (hk ▸ List.mem_map_of_mem he)
    rw [if_neg hne]
  exact (List.map_congr_left hid).trans (List.map_id' t)

end Table

section Neighbours
variable {α : Type} (t : Table Nat (Table Nat α)) (us : List Nat) (n : Nat)

/-- Removing `n` at several boxes. -/
theorem get?_foldl_remove (k : Nat) : (us.foldl (fun t u => t.adjust u (·.remove n)) t).get? k =
    if k ∈ us then (t.get? k).map (·.remove n) else t.get? k := by
  induction us generalizing t with
  | nil => simp
  | cons u us ih =>
    have htwice : (fun a : Table Nat α => (a.remove n).remove n) = fun a => a.remove n := by
      funext a
      simp [Table.remove]
    rw [List.foldl_cons, ih, Table.get?_adjust]
    by_cases hk : u = k <;> by_cases hmem : k ∈ us <;>
      simp [hk, hmem, Ne.symm, Function.comp_def, htwice]

theorem foldl_remove_remove : (us.foldl (fun t u => t.adjust u (·.remove n)) t).remove n =
    us.foldl (fun t u => t.adjust u (·.remove n)) (t.remove n) := by
  induction us generalizing t with
  | nil => rfl
  | cons u us ih => rw [List.foldl_cons, ih, Table.remove_adjust, List.foldl_cons]

/-- A box that the table does not have may be left out. -/
theorem foldl_remove_filter (h : n ∉ t.keys) :
    (us.filter fun u => !decide (u = n)).foldl (fun t u => t.adjust u (·.remove n)) t =
      us.foldl (fun t u => t.adjust u (·.remove n)) t := by
  induction us generalizing t with
  | nil => rfl
  | cons u us ih =>
    rw [List.filter_cons, List.foldl_cons]
    split
    · exact ih _ (by rwa [Table.keys_adjust])
    · next hu =>
      obtain rfl : u = n := by simpa using hu
      rw [Table.adjust_eq_self h]
      exact ih t h

end Neighbours

/-- Removing several keys at once. -/
theorem foldl_remove {κ α : Type} [DecidableEq κ] (t : Table κ α) (us : List Nat) {f : Nat → κ} {p : κ → Bool}
    (hp : ∀ k, p k = true ↔ ∃ u ∈ us, k = f u) :
    us.foldl (fun t u => t.remove (f u)) t = t.filter fun e => !p e.1 := by
  obtain rfl : p = fun k => decide (∃ u ∈ us, k = f u) := by
    funext k
    rw [Bool.eq_iff_iff, hp, decide_eq_true_iff]
  clear hp
  induction us generalizing t with
  | nil => exact (List.filter_eq_self.mpr fun e _ => by simp).symm
  | cons u us ih =>
    rw [List.foldl_cons, ih, Table.remove, List.filter_filter]
    apply List.filter_congr
    intro e _
    by_cases hu : e.1 = f u <;> simp [hu]

namespace Revision
variable {d : Diagram}

/-- The edges out of a box are dropped at both tables. -/
theorem perform_dropTargets (n : Nat) (us : List Nat) (d : Diagram) :
    (us.forM (dropTarget n)).perform d = (.ok (), { d with
      edges := d.edges.filter fun e => !(e.1.1 == n && us.contains e.1.2)
      pred := us.foldl (fun t u => t.adjust u (·.remove n)) d.pred }) := by
  let drop := fun (d : Diagram) (u : Nat) => { d with
    edges := d.edges.remove (n, u)
    pred := d.pred.adjust u (·.remove n) }
  have hstep : ∀ u d, (dropTarget n u).perform d = (.ok (), drop d u) := fun _ _ => rfl
  have hfold : us.foldl drop d = { d with
      edges := us.foldl (fun t u => t.remove (n, u)) d.edges
      pred := us.foldl (fun t u => t.adjust u (·.remove n)) d.pred } := by
    clear hstep
    induction us generalizing d with
    | nil => rfl
    | cons u us ih => exact ih _
  have hkeys : ∀ e : Nat × Nat, (e.1 == n && us.contains e.2) = true ↔ ∃ u ∈ us, e = (n, u) := by
    rintro ⟨a, b⟩
    simp [and_comm]
  rw [perform_forM hstep, hfold, foldl_remove d.edges us hkeys]

theorem perform_dropSources (n : Nat) (us : List Nat) (d : Diagram) :
    (us.forM (dropSource n)).perform d = (.ok (), { d with
      edges := d.edges.filter fun e => !(e.1.2 == n && us.contains e.1.1)
      succ := us.foldl (fun t u => t.adjust u (·.remove n)) d.succ }) := by
  let drop := fun (d : Diagram) (u : Nat) => { d with
    edges := d.edges.remove (u, n)
    succ := d.succ.adjust u (·.remove n) }
  have hstep : ∀ u d, (dropSource n u).perform d = (.ok (), drop d u) := fun _ _ => rfl
  have hfold : us.foldl drop d = { d with
      edges := us.foldl (fun t u => t.remove (u, n)) d.edges
      succ := us.foldl (fun t u => t.adjust u (·.remove n)) d.succ } := by
    clear hstep
    induction us generalizing d with
    | nil => rfl
    | cons u us ih => exact ih _
  have hkeys : ∀ e : Nat × Nat, (e.2 == n && us.contains e.1) = true ↔ ∃ u ∈ us, e = (u, n) := by
    rintro ⟨a, b⟩
    simp [and_comm]
  rw [perform_forM hstep, hfold, foldl_remove d.edges us hkeys]

theorem perform_addBox (hd : d.Consistent) (box : Value) :
    (addBox box).perform d = (.ok d.next, d.addBox box) := by
  have hsucc : d.next ∉ d.succ.keys := hd.succ_keys ▸ hd.next_not_live
  have hpred : d.next ∉ d.pred.keys := hd.pred_keys ▸ hd.next_not_live
  have hboxes : d.next ∉ d.boxes.keys := fun h => hd.next_not_live (Diagram.Consistent.box_live h)
  have hrun : (addBox box).perform d = (.ok d.next, { d with
      boxes := d.boxes.put d.next box
      succ := d.succ.put d.next []
      pred := d.pred.put d.next []
      next := d.next + 1 }) := rfl
  rw [hrun, Table.put_of_not_mem hboxes, Table.put_of_not_mem hsucc, Table.put_of_not_mem hpred]
  rfl

/-- A box with rows in both tables is removed. A loop at it is dropped with the edges out of it, and is
not met again. -/
theorem perform_removeBox_row {v box : Value} {n : Nat} {out into : Table Nat Value}
    (hb : Diagram.isBoundary v = false) (hv : v.boxId? = some n) (hbox : d.boxes.get? n = some box)
    (hout : d.succ.get? n = some out) (hinto : d.pred.get? n = some into) :
    (removeBox v).perform d = (.ok box, d.unlink n out.keys into.keys) := by
  -- The sources of the box when the edges out of it are gone: a loop has been taken from them.
  let into' : Table Nat Value := if n ∈ out.keys then into.remove n else into
  have hinto' : (out.keys.foldl (fun t u => t.adjust u (·.remove n)) d.pred).get? n = some into' := by
    rw [get?_foldl_remove, hinto]
    by_cases hn : n ∈ out.keys <;> simp [into', hn]
  have hsucc : into'.keys.foldl (fun t u => t.adjust u (·.remove n)) (d.succ.remove n) =
      into.keys.foldl (fun t u => t.adjust u (·.remove n)) (d.succ.remove n) := by
    by_cases hn : n ∈ out.keys
    · rw [show into' = into.remove n from if_pos hn, Table.keys_remove]
      apply foldl_remove_filter
      simp
    · rw [show into' = into from if_neg hn]
  have hedges : ((d.edges.filter fun e => !(e.1.1 == n && out.keys.contains e.1.2)).filter
      fun e => !(e.1.2 == n && into'.keys.contains e.1.1)) = (d.unlink n out.keys into.keys).edges := by
    rw [Diagram.unlink, List.filter_filter]
    apply List.filter_congr
    rintro ⟨⟨a, b⟩, ws⟩ -
    by_cases hn : n ∈ out.keys
    · by_cases ha : a = n <;> by_cases hb : b = n <;> simp [into', hn, ha, hb, Bool.and_comm]
    · simp [into', hn, Bool.and_comm]
  rw [removeBox, perform_bind, perform_read, hb]
  change perform (access _ >>= _) _ = _
  rw [perform_bind, perform_access, Table.resolve_eq_ok.mpr ⟨hv, hbox⟩]
  change perform (access _ >>= _) _ = _
  rw [perform_bind, perform_access, Table.resolve_eq_ok.mpr ⟨hv, hout⟩]
  change perform (List.forM _ _ >>= _) _ = _
  rw [perform_bind, perform_dropTargets]
  dsimp only
  rw [perform_bind, perform_access, Table.resolve_eq_ok.mpr ⟨hv, hinto'⟩]
  change perform (List.forM _ _ >>= _) _ = _
  rw [perform_bind, perform_dropSources]
  dsimp only
  rw [hsucc, hedges, foldl_remove_remove]
  rfl

theorem perform_removeBox (hd : d.Consistent) (v : Value) :
    (removeBox v).perform d = settle d (d.removeBox v) := by
  cases hb : Diagram.isBoundary v with
  | true =>
    rw [removeBox, perform_bind, perform_read, hb, Diagram.removeBox, hb]
    rfl
  | false =>
    rcases hv : d.boxes.resolve v with e | ⟨n, box⟩
    · rw [removeBox, perform_bind, perform_read, hb]
      change perform (access _ >>= _) _ = _
      rw [perform_bind, perform_access, hv, Diagram.removeBox, hb, hv]
      rfl
    · obtain ⟨hn, hbox⟩ := Table.resolve_eq_ok.mp hv
      have hlive := Diagram.Consistent.box_live (Table.mem_keys_of_get? hbox)
      obtain ⟨out, hout, -⟩ := hd.exists_out hlive
      obtain ⟨into, hinto, -⟩ := hd.exists_into hlive
      rw [perform_removeBox_row hb hn hbox hout hinto, Diagram.removeBox, hb, hv]
      change _ = settle d (.ok (box, d.unlink n ((d.succ.get? n).getD []).keys
        ((d.pred.get? n).getD []).keys))
      rw [hout, hinto]
      rfl

/-- Both ends of a wire are looked up before anything is written, and found again by each write. -/
theorem perform_addWire (d : Diagram) (w : Wire) :
    (addWire w).perform d = settle d (do return ((), ← d.addWire w)) := by
  rw [addWire, perform_bind, perform_read, Diagram.addWire]
  rcases hs : d.succ.resolve w.source.box with e | ⟨s, out⟩
  · rfl
  · dsimp only
    rw [perform_bind, perform_read]
    rcases ht : d.pred.resolve w.target.box with e | ⟨t, into⟩
    · rfl
    · dsimp only
      rw [perform_bind, perform_write_ok (by rw [hs]; rfl)]
      dsimp only
      rw [perform_bind, perform_write_ok (by rw [ht]; rfl)]
      rfl

section Edge
variable {src tgt : Value} {e : Nat × Nat}

theorem dropEdge_eq_ok (hedge : Diagram.edge? src tgt = .ok (some e)) (he : e ∈ d.edges.keys) :
    dropEdge src tgt d = .ok { d with edges := d.edges.remove e } := by
  rw [dropEdge, hedge]
  exact if_pos (Table.get?_isSome.mpr he)

theorem dropFromSucc_eq_ok {out : Table Nat Value} (hs : src.boxId? = some e.1) (ht : tgt.boxId? = some e.2)
    (hout : d.succ.get? e.1 = some out) (hmem : e.2 ∈ out.keys) :
    dropFromSucc src tgt d = .ok { d with succ := d.succ.adjust e.1 (·.remove e.2) } := by
  obtain ⟨x, hx⟩ := Table.exists_get? hmem
  have hinner : Table.resolve out tgt = .ok (e.2, x) := Table.resolve_eq_ok.mpr ⟨ht, hx⟩
  rw [dropFromSucc, Table.resolve_eq_ok.mpr ⟨hs, hout⟩]
  simp only [bind, Except.bind, hinner]
  rfl

theorem dropFromPred_eq_ok {into : Table Nat Value} (hs : src.boxId? = some e.1) (ht : tgt.boxId? = some e.2)
    (hinto : d.pred.get? e.2 = some into) (hmem : e.1 ∈ into.keys) :
    dropFromPred src tgt d = .ok { d with pred := d.pred.adjust e.2 (·.remove e.1) } := by
  obtain ⟨x, hx⟩ := Table.exists_get? hmem
  have hinner : Table.resolve into src = .ok (e.1, x) := Table.resolve_eq_ok.mpr ⟨hs, hx⟩
  rw [dropFromPred, Table.resolve_eq_ok.mpr ⟨ht, hinto⟩]
  simp only [bind, Except.bind, hinner]
  rfl

/-- An edge that the tables of neighbours tell of is removed from these too, whatever its wires are. -/
theorem perform_removeEdge (hd : d.Consistent) (ws : List Wire) (he : e ∈ d.edges.keys)
    (hedge : Diagram.edge? src tgt = .ok (some e)) (hs : src.boxId? = some e.1) (ht : tgt.boxId? = some e.2) :
    (removeEdge src tgt).perform (d.withEdge e ws) = (.ok (), d.removeEdge e) := by
  obtain ⟨hslive, htlive⟩ := hd.edge_live e he
  obtain ⟨out, hout, htargets⟩ := hd.exists_out hslive
  obtain ⟨into, hinto, hsources⟩ := hd.exists_into htlive
  have htout : e.2 ∈ out.keys := htargets ▸ Diagram.mem_targets.mpr he
  have hsinto : e.1 ∈ into.keys := hsources ▸ Diagram.mem_sources.mpr he
  have he' : e ∈ (d.withEdge e ws).edges.keys := by
    rwa [Diagram.withEdge, Table.keys_put_of_mem he]
  let d₁ : Diagram := { d with edges := d.edges.remove e }
  let d₂ : Diagram := { d₁ with succ := d₁.succ.adjust e.1 (·.remove e.2) }
  have h₁ : dropEdge src tgt (d.withEdge e ws) = .ok d₁ := by
    rw [dropEdge_eq_ok hedge he']
    simp only [Diagram.withEdge, Table.remove_put, d₁]
  have h₂ : dropFromSucc src tgt d₁ = .ok d₂ := dropFromSucc_eq_ok hs ht hout htout
  have h₃ : dropFromPred src tgt d₂ = .ok (d.removeEdge e) := dropFromPred_eq_ok hs ht hinto hsinto
  rw [removeEdge, perform_bind, perform_write_ok h₁]
  dsimp only
  rw [perform_bind, perform_write_ok h₂]
  exact perform_write_ok h₃

end Edge

/-- An edge that is there has a place in each table, so that only the first write can be refused. -/
theorem perform_removeWires (hd : d.Consistent) (src tgt : Value) :
    (removeEdge src tgt).perform d = settle d (do return ((), ← d.removeWires src tgt)) := by
  have hrefused : ∀ {fault : Fault}, dropEdge src tgt d = .error fault →
      (removeEdge src tgt).perform d = (.error fault, d) := by
    intro fault h
    rw [removeEdge, perform_bind, perform_write_error h]
  rcases Listing.edge?_cases src tgt with ⟨hedge, -⟩ | ⟨-, ⟨e, hedge, hs, ht⟩ | ⟨hedge, -⟩⟩
  · rw [hrefused (by rw [dropEdge, hedge]; rfl), Diagram.removeWires, hedge]
    rfl
  · by_cases he : e ∈ d.edges.keys
    · obtain ⟨ws, hws⟩ := Table.exists_get? he
      have hsame : d.withEdge e ws = d := by
        rw [Diagram.withEdge, Table.put_of_get? hws]
      have hrun := perform_removeEdge hd ws he hedge hs ht
      rw [hsame] at hrun
      rw [hrun, Diagram.removeWires, hedge]
      simp [bind, Except.bind, hws]
      rfl
    · have hnone := Table.get?_eq_none.mpr he
      rw [hrefused (by rw [dropEdge, hedge]; simp [bind, Except.bind, hnone]; rfl), Diagram.removeWires, hedge]
      simp [bind, Except.bind, hnone]
      rfl
  · rw [hrefused (by rw [dropEdge, hedge]; rfl), Diagram.removeWires, hedge]
    rfl

/-- The edge of a wire that is there has a place in each table, and keeps it until it goes. -/
theorem perform_removeWire (hd : d.Consistent) (w : Wire) :
    (removeWire w).perform d = settle d (do return ((), ← d.removeWire w)) := by
  have hrefused : ∀ {fault : Fault}, takeWire w d = .error fault →
      (removeWire w).perform d = (.error fault, d) := by
    intro fault h
    rw [removeWire, perform_bind, perform_access, h]
    rfl
  rcases Listing.edge?_cases w.source.box w.target.box with ⟨hedge, -⟩ | ⟨-, ⟨e, hedge, hs, ht⟩ | ⟨hedge, -⟩⟩
  · rw [hrefused (by rw [takeWire, hedge]; rfl), Diagram.removeWire, hedge]
    rfl
  · cases hany : (d.wiresOn e).any (·.same w) with
    | false =>
      rw [hrefused (by rw [takeWire, hedge]; simp [bind, Except.bind, hany]; rfl), Diagram.removeWire, hedge]
      simp [bind, Except.bind, hany]
      rfl
    | true =>
      have he : e ∈ d.edges.keys := by
        by_contra he
        simp [Diagram.wiresOn, Table.get?_eq_none.mpr he] at hany
      let rest := (d.wiresOn e).eraseP (·.same w)
      have htake : takeWire w d = .ok (e, d.withEdge e rest) := by
        rw [takeWire, hedge]
        simp [bind, Except.bind, hany]
        rfl
      have hrest : (d.withEdge e rest).edges.get? e = some rest := by
        rw [Diagram.withEdge, Table.get?_put, if_pos rfl]
      have hremove : d.removeWire w = .ok (if rest = [] then d.removeEdge e else d.withEdge e rest) := by
        rw [Diagram.removeWire, hedge]
        simp only [bind, Except.bind, hany, if_true]
        split
        · next hnil => rw [if_pos hnil]; rfl
        · next hnil => rw [if_neg hnil]; rfl
      rw [removeWire, perform_bind, perform_access, htake]
      change perform (read _ >>= _) _ = _
      rw [perform_bind, perform_read, hrest, hremove]
      dsimp only
      by_cases hnil : rest = []
      · rw [if_pos hnil, if_pos hnil, perform_removeEdge hd _ he hedge hs ht]
        rfl
      · rw [if_neg hnil, if_neg hnil]
        rfl
  · rw [hrefused (by rw [takeWire, hedge]; rfl), Diagram.removeWire, hedge]
    rfl

end Revision
end StringDiagram
