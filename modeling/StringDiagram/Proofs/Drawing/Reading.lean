import StringDiagram.Proofs.Drawing.Labels

/-! # Reading a DOT text

A text is read statement by statement: what is set for the whole graph, nodes with their attributes, and edges
from one place to another with theirs. A document whose names, ports and values can all be read on their own is
read as what it is written for: `read_text`. -/
namespace StringDiagram.Dot
open Text

/-- A node, and behind colons a port of it and a point of the compass, or less. -/
structure Place where
  node : Datum
  parts : List Datum
deriving DecidableEq

inductive Head where
  | node (place : Place)
  | edge (source target : Place)
deriving DecidableEq

inductive Entry where
  | setting (key value : Datum)
  | stated (head : Head) (attributes : List (Datum × Datum))
deriving DecidableEq

def Head.ofPlace : Option Place → Place → Head
  | none, p => .node p
  | some source, p => .edge source p

inductive Stage where
  | fresh
  | place (source : Option Place) (p : Place)
  | attributes (head : Head) (attributes : List (Datum × Datum))

/-- Every statement about a node or an edge has its attributes behind it. -/
def parse : Stage → List Token → Option (List Entry)
  | .fresh, [.stop] => some []
  | .fresh, .datum k :: .equals :: .datum v :: ts => (parse .fresh ts).map (.setting k v :: ·)
  | .fresh, .datum n :: ts => parse (.place none ⟨n, []⟩) ts
  | .place source p, .colon :: .datum d :: ts =>
    if p.parts.length < 2 then parse (.place source ⟨p.node, p.parts ++ [d]⟩) ts else none
  | .place none p, .arrow :: .datum n :: ts => parse (.place (some p) ⟨n, []⟩) ts
  | .place source p, .opening :: ts => parse (.attributes (.ofPlace source p) []) ts
  | .attributes h as, .closing :: ts => (parse .fresh ts).map (.stated h as :: ·)
  | .attributes h as, .datum k :: .equals :: .datum v :: ts => parse (.attributes h (as ++ [(k, v)])) ts
  | _, _ => none

def read (text : List Char) : Option (Datum × List Entry) :=
  match tokens text with
  | some (.keyword k :: .datum name :: .start :: ts) =>
    if k = "digraph".toList then (parse .fresh ts).map (name, ·) else none
  | _ => none

section Tokens

def partTokens (d : Datum) : List Token := [.colon, .datum d]

def pairTokens (a : Datum × Datum) : List Token := [.datum a.1, .equals, .datum a.2]

def Place.tokens (p : Place) : List Token := .datum p.node :: p.parts.flatMap partTokens

def Head.tokens : Head → List Token
  | .node p => p.tokens
  | .edge p q => p.tokens ++ .arrow :: q.tokens

def Entry.tokens : Entry → List Token
  | .setting k v => pairTokens (k, v)
  | .stated h as => h.tokens ++ .opening :: (as.flatMap pairTokens ++ [.closing])

def Place.Short (p : Place) : Prop := p.parts.length ≤ 2

def Entry.Short : Entry → Prop
  | .setting _ _ => True
  | .stated (.node p) _ => p.Short
  | .stated (.edge p q) _ => p.Short ∧ q.Short

theorem parse_attributes (h : Head) (as bs : List (Datum × Datum)) (ts : List Token) :
    parse (.attributes h as) (bs.flatMap pairTokens ++ .closing :: ts) =
      (parse .fresh ts).map (.stated h (as ++ bs) :: ·) := by
  induction bs generalizing as with
  | nil => simp [parse]
  | cons b bs ih =>
    rw [List.flatMap_cons, pairTokens, List.append_assoc]
    simp only [List.cons_append, List.nil_append, parse]
    rw [ih, List.append_assoc]
    rfl

theorem parse_place (source : Option Place) {n : Datum} {ds es : List Datum} (h : (ds ++ es).length ≤ 2)
    (ts : List Token) :
    parse (.place source ⟨n, ds⟩) (es.flatMap partTokens ++ ts) = parse (.place source ⟨n, ds ++ es⟩) ts := by
  induction es generalizing ds with
  | nil => simp
  | cons e es ih =>
    have hlt : ds.length < 2 := by
      rw [List.length_append, List.length_cons] at h
      omega
    rw [List.flatMap_cons, partTokens, List.append_assoc]
    simp only [List.cons_append, List.nil_append, parse, if_pos hlt]
    rw [ih (by simpa using h), List.append_assoc]
    rfl

theorem Place.Short.parse_tokens {p : Place} (hp : p.Short) (source : Option Place) (ts : List Token) :
    parse (.place source ⟨p.node, []⟩) (p.parts.flatMap partTokens ++ ts) = parse (.place source p) ts :=
  parse_place source (show ([] ++ p.parts).length ≤ 2 from hp) ts

/-- A name behind which no value is set starts a statement about a node or an edge. -/
theorem parse_name {p : Place} (hp : p.Short) {t : Token} (ht : t ≠ .equals) (ts : List Token) :
    parse .fresh (p.tokens ++ t :: ts) = parse (.place none p) (t :: ts) := by
  rw [Place.tokens, List.cons_append, parse, hp.parse_tokens]
  intro v us h
  cases hparts : p.parts with
  | nil =>
    rw [hparts] at h
    exact ht (List.cons.inj h).1
  | cons d ds =>
    rw [hparts] at h
    cases h

theorem parse_entry {e : Entry} (he : e.Short) (ts : List Token) :
    parse .fresh (e.tokens ++ ts) = (parse .fresh ts).map (e :: ·) := by
  cases e with
  | setting k v => rfl
  | stated h as =>
    cases h with
    | node p =>
      simp only [Entry.tokens, Head.tokens, List.append_assoc, List.cons_append, List.nil_append]
      rw [parse_name he (by decide), parse, parse_attributes, List.nil_append]
      rfl
    | edge p q =>
      simp only [Entry.tokens, Head.tokens, List.append_assoc, List.cons_append, List.nil_append]
      rw [parse_name he.1 (by decide), Place.tokens, List.cons_append, parse, he.2.parse_tokens, parse,
        parse_attributes, List.nil_append]
      rfl

theorem parse_entries {es : List Entry} (h : ∀ e ∈ es, e.Short) (ts : List Token) :
    parse .fresh (es.flatMap Entry.tokens ++ ts) = (parse .fresh ts).map (es ++ ·) := by
  induction es with
  | nil => simp
  | cons e es ih =>
    obtain ⟨he, hes⟩ := List.forall_mem_cons.mp h
    rw [List.flatMap_cons, List.append_assoc, parse_entry he, ih hes, Option.map_map]
    rfl

end Tokens
section Documents

def Attributes.entries? (as : Attributes) : Option (List (Datum × Datum)) :=
  as.mapM fun a => do return (← written? a.1.toList, ← written? a.2.toList)

/-- A node and a port of it, which is named behind the first colon. What stands behind a second colon is written
as it is. -/
def place? (s : String) : Option Place :=
  let (node, rest) := splitColon s.toList
  if rest.isEmpty then (written? node).map (⟨·, []⟩)
  else
    let (port, compass) := splitColon rest
    if compass.isEmpty then do return ⟨← written? node, [← written? port]⟩
    else do return ⟨← written? node, [← written? port, ← datum? compass]⟩

def Statement.entries? : Statement → Option (List Entry)
  | .graph as => do return (← as.entries?).map fun a => .setting a.1 a.2
  | .node name as => do return [.stated (.node ⟨← written? name.toList, []⟩) (← as.entries?)]
  | .edge source target as => do return [.stated (.edge (← place? source) (← place? target)) (← as.entries?)]

def Document.entries? (doc : Document) : Option (List Entry) := do
  return (← doc.statements.mapM Statement.entries?).flatten

section Inversion
variable {as : Attributes} {es : List Entry}

theorem entries?_graph (h : (Statement.graph as).entries? = some es) :
    ∃ ps, as.entries? = some ps ∧ es = ps.map fun a => .setting a.1 a.2 := by
  simp only [Statement.entries?, Option.bind_eq_bind, Option.bind_eq_some_iff, Option.pure_def,
    Option.some.injEq] at h
  obtain ⟨ps, hps, rfl⟩ := h
  exact ⟨ps, hps, rfl⟩

theorem entries?_node {name : String} (h : (Statement.node name as).entries? = some es) :
    ∃ n ps, written? name.toList = some n ∧ as.entries? = some ps ∧ es = [.stated (.node ⟨n, []⟩) ps] := by
  simp only [Statement.entries?, Option.bind_eq_bind, Option.bind_eq_some_iff, Option.pure_def,
    Option.some.injEq] at h
  obtain ⟨n, hn, ps, hps, rfl⟩ := h
  exact ⟨n, ps, hn, hps, rfl⟩

theorem entries?_edge {source target : String} (h : (Statement.edge source target as).entries? = some es) :
    ∃ p q ps, place? source = some p ∧ place? target = some q ∧ as.entries? = some ps ∧
      es = [.stated (.edge p q) ps] := by
  simp only [Statement.entries?, Option.bind_eq_bind, Option.bind_eq_some_iff, Option.pure_def,
    Option.some.injEq] at h
  obtain ⟨p, hp, q, hq, ps, hps, rfl⟩ := h
  exact ⟨p, q, ps, hp, hq, hps, rfl⟩

end Inversion
section Yields
variable {as : Attributes} {ps : List (Datum × Datum)} {s : String} {p : Place} {st : Statement} {es : List Entry}

theorem yields_pair {a : String × String} {k v : Datum} (hk : written? a.1.toList = some k)
    (hv : written? a.2.toList = some v) :
    Yields (quoteText a.1 ++ "=" ++ quoteText a.2).toList (pairTokens (k, v)) := by
  have hvalue : Yields ('=' :: quote a.2.toList) [.equals, .datum v] := .mark rfl (yields_written hv)
  have h := (yields_written hk).append (by decide) hvalue
  simpa [toList_quoteText, pairTokens] using h

theorem entries?_cons {a : String × String} (h : Attributes.entries? (a :: as) = some ps) : ∃ k v qs,
    written? a.1.toList = some k ∧ written? a.2.toList = some v ∧ as.entries? = some qs ∧ ps = (k, v) :: qs := by
  simp only [Attributes.entries?, List.mapM_cons, Option.bind_eq_bind, Option.bind_eq_some_iff, Option.pure_def,
    Option.some.injEq] at h
  obtain ⟨_, ⟨k, hk, v, hv, rfl⟩, qs, hqs, rfl⟩ := h
  exact ⟨k, v, qs, hk, hv, hqs, rfl⟩

theorem yields_attributes (h : as.entries? = some ps) : Yields as.text.toList (ps.flatMap pairTokens) := by
  induction as generalizing ps with
  | nil =>
    cases h
    exact .nil
  | cons a as ih =>
    obtain ⟨k, v, qs, hk, hv, hqs, rfl⟩ := entries?_cons h
    have hpair := yields_pair hk hv
    have hrest := ih hqs
    cases as with
    | nil =>
      cases hqs
      simpa [Attributes.text] using hpair
    | cons b as =>
      have hblank : Yields (' ' :: (Attributes.text (b :: as)).toList) (qs.flatMap pairTokens) := .blank rfl hrest
      have h := hpair.append (by decide) hblank
      rw [List.flatMap_cons]
      simpa [Attributes.text] using h

/-- The end of an edge is read as its place. -/
theorem place?_spec (h : place? s = some p) : p.Short ∧ Yields (edgeEndText s).toList p.tokens := by
  rw [edgeEndText, String.toList_ofList]
  simp only [place?] at h
  simp only [edgeEnd]
  split at h
  · next hrest =>
    obtain ⟨d, hd, rfl⟩ := Option.map_eq_some_iff.mp h
    rw [if_pos hrest]
    exact ⟨Nat.zero_le _, yields_written hd⟩
  · next hrest =>
    split at h
    · next hcompass =>
      simp only [Option.bind_eq_bind, Option.bind_eq_some_iff, Option.pure_def, Option.some.injEq] at h
      obtain ⟨d, hd, d', hd', rfl⟩ := h
      rw [if_neg hrest, if_pos hcompass, List.append_nil]
      exact ⟨Nat.le_succ 1, (yields_written hd).append (by decide) (.mark rfl (yields_written hd'))⟩
    · next hcompass =>
      simp only [Option.bind_eq_bind, Option.bind_eq_some_iff, Option.pure_def, Option.some.injEq] at h
      obtain ⟨d, hd, d', hd', c, hc, rfl⟩ := h
      rw [if_neg hrest, if_neg hcompass]
      have hport : Yields (':' :: quote (splitColon (splitColon s.toList).2).1) [.colon, .datum d'] :=
        .mark rfl (yields_written hd')
      have hbehind : Yields (':' :: (splitColon (splitColon s.toList).2).2) [.colon, .datum c] :=
        .mark rfl (yields_datum hc)
      exact ⟨Nat.le_refl 2, ((yields_written hd).append (by decide) hport).append (by decide) hbehind⟩

theorem yields_bracketed (h : as.entries? = some ps) :
    Yields (' ' :: '[' :: (as.text.toList ++ [']'])) (.opening :: (ps.flatMap pairTokens ++ [.closing])) :=
  .blank rfl (.mark rfl ((yields_attributes h).append (by decide) (.mark rfl .nil)))

theorem scan_edge {source target : String} {ts us : List Token} (hsource : Yields (edgeEndText source).toList ts)
    (htarget : Yields (edgeEndText target).toList us) (h : as.entries? = some ps) :
    scan step .between (Statement.edge source target as).text.toList =
      (ts ++ .arrow :: us ++ .opening :: (ps.flatMap pairTokens ++ [.closing]), .between) := by
  have hblank : Yields ('\t' :: (edgeEndText source).toList) ts := .blank rfl hsource
  have harrow : Yields (' ' :: '-' :: '>' :: ' ' :: (edgeEndText target).toList) (.arrow :: us) :=
    .blank rfl (.arrow (.blank rfl htarget))
  have hline := ((hblank.append (by decide) harrow).append (by decide) (yields_bracketed h)).scan_eq (by decide)
    enter_newline
  simpa [Statement.text] using hline

/-- A statement is read as it is meant, from between two tokens to between two tokens. -/
theorem scan_statement (h : st.entries? = some es) :
    scan step .between st.text.toList = (es.flatMap Entry.tokens, .between) := by
  cases st with
  | graph as =>
    obtain ⟨ps, hps, rfl⟩ := entries?_graph h
    have hline : Yields ('\t' :: as.text.toList) (ps.flatMap pairTokens) := .blank rfl (yields_attributes hps)
    have htokens : (ps.map fun a => Entry.setting a.1 a.2).flatMap Entry.tokens = ps.flatMap pairTokens := by
      rw [List.flatMap_map]
      rfl
    rw [htokens]
    simpa [Statement.text] using hline.scan_eq (by decide) enter_newline
  | node name as =>
    obtain ⟨n, ps, hn, hps, rfl⟩ := entries?_node h
    have hname : Yields ('\t' :: quote name.toList) [.datum n] := .blank rfl (yields_written hn)
    have hline := (hname.append (by decide) (yields_bracketed hps)).scan_eq (by decide) enter_newline
    simpa [Statement.text, toList_quoteText, Entry.tokens, Head.tokens, Place.tokens] using hline
  | edge source target as =>
    obtain ⟨p, q, ps, hp, hq, hps, rfl⟩ := entries?_edge h
    simpa [Entry.tokens, Head.tokens] using scan_edge (place?_spec hp).2 (place?_spec hq).2 hps

theorem exists_short (h : st.entries? = some es) : ∀ e ∈ es, e.Short := by
  cases st with
  | graph as =>
    obtain ⟨ps, -, rfl⟩ := entries?_graph h
    intro e he
    obtain ⟨a, -, rfl⟩ := List.mem_map.mp he
    trivial
  | node name as =>
    obtain ⟨n, ps, -, -, rfl⟩ := entries?_node h
    simp [Entry.Short, Place.Short]
  | edge source target as =>
    obtain ⟨p, q, ps, hp, hq, -, rfl⟩ := entries?_edge h
    simpa [Entry.Short] using ⟨(place?_spec hp).1, (place?_spec hq).1⟩

end Yields

variable {doc : Document} {es : List Entry} {name : Datum}

theorem scan_statements {sts : List Statement} {ess : List (List Entry)}
    (h : sts.mapM Statement.entries? = some ess) :
    scan step .between (sts.flatMap fun st => st.text.toList) = (ess.flatten.flatMap Entry.tokens, .between) ∧
      ∀ e ∈ ess.flatten, e.Short := by
  induction sts generalizing ess with
  | nil =>
    cases h
    exact ⟨rfl, nofun⟩
  | cons st sts ih =>
    simp only [List.mapM_cons, Option.bind_eq_bind, Option.bind_eq_some_iff, Option.pure_def,
      Option.some.injEq] at h
    obtain ⟨es, hes, ess, hess, rfl⟩ := h
    obtain ⟨hscan, hshort⟩ := ih hess
    rw [List.flatMap_cons, List.flatten_cons, List.flatMap_append]
    exact ⟨scan_append (scan_statement hes) hscan, List.forall_mem_append.mpr ⟨exists_short hes, hshort⟩⟩

/-- A document is read up to its last statements as it is meant, and then as the scanner finds them. -/
theorem read_append (hname : written? doc.name.toList = some name) (h : doc.entries? = some es) {sts : List Statement}
    {ts : List Token} (hscan : scan step .between (sts.flatMap fun st => st.text.toList) = (ts, .between))
    {es' : List Entry} (hparse : parse .fresh (ts ++ [.stop]) = some es') :
    read (⟨doc.name, doc.statements ++ sts⟩ : Document).text.toList = some (name, es ++ es') := by
  simp only [Document.entries?, Option.bind_eq_bind, Option.bind_eq_some_iff, Option.pure_def,
    Option.some.injEq] at h
  obtain ⟨ess, hess, rfl⟩ := h
  obtain ⟨hstatements, hshort⟩ := scan_statements hess
  have hkeyword : Yields "digraph".toList [.keyword "digraph".toList] :=
    yields_of_scan_word (by decide : scan step .between _ = ([], .word "digraph".toList)) (by decide)
  have hname' : Yields (' ' :: quote doc.name.toList) [.datum name] := .blank rfl (yields_written hname)
  have hstart : Yields [' ', '\x7b'] [.start] := .blank rfl (.mark rfl .nil)
  have hheader := ((hkeyword.append (by decide) hname').append (by decide) hstart).scan_eq (by decide)
    enter_newline
  have hclosing : scan step .between ['\x7d', '\n'] = ([.stop], .between) := rfl
  have htokens := scan_append (scan_append (scan_append hheader hstatements) hscan) hclosing
  have htext : (⟨doc.name, doc.statements ++ sts⟩ : Document).text.toList = "digraph".toList ++
      ' ' :: quote doc.name.toList ++ [' ', '\x7b'] ++ ['\n'] ++ (doc.statements.flatMap fun st => st.text.toList) ++
      (sts.flatMap fun st => st.text.toList) ++ ['\x7d', '\n'] := by
    simp [Document.text, toList_quoteText, String.toList_join, List.flatMap_map]
  rw [read, tokens, htext, htokens]
  simp [parse_entries hshort, hparse]

/-- The text of a document says what the document is written to say. -/
theorem read_text (hname : written? doc.name.toList = some name) (h : doc.entries? = some es) :
    read doc.text.toList = some (name, es) := by
  have hscan : scan step .between (([] : List Statement).flatMap fun st => st.text.toList) = ([], .between) := rfl
  have hparse : parse .fresh ([] ++ [.stop]) = some [] := rfl
  have hread := read_append hname h hscan hparse
  rwa [List.append_nil, List.append_nil] at hread

end Documents
end StringDiagram.Dot
