import StringDiagram.Proofs.Drawing.Codes

/-! # The tokens of a DOT text

A text is scanned from its start to its end, and each character leads from one state to the next. In a quoted
string a backslash is kept, unless it stands before a quotation mark or a line break; in markup the brackets
are counted. The scanner knows the part of the language that documents use: there are no comments in it, and
no strings that are put together.

Where the written form of a text ends does not depend on what comes after it, if that cannot go on a word:
`written?` is the datum that is read there, and `yields_written` says that it is read anywhere. -/
namespace StringDiagram.Text
variable {σ α β : Type} {step : σ → α → List β × σ} {p q r : σ} {u v : List α} {a b : List β}

/-- What a machine makes of a text from a state: what it gives out, and the state it ends in. -/
def scan (step : σ → α → List β × σ) : σ → List α → List β × σ
  | q, [] => ([], q)
  | q, c :: cs => ((step q c).1 ++ (scan step (step q c).2 cs).1, (scan step (step q c).2 cs).2)

@[simp] theorem scan_nil (q : σ) : scan step q [] = ([], q) := rfl

theorem scan_cons (q : σ) (c : α) (cs : List α) : scan step q (c :: cs) =
    ((step q c).1 ++ (scan step (step q c).2 cs).1, (scan step (step q c).2 cs).2) := rfl

theorem scan_append (h : scan step p u = (a, q)) (h' : scan step q v = (b, r)) :
    scan step p (u ++ v) = (a ++ b, r) := by
  induction u generalizing p a with
  | nil =>
    cases h
    exact h'
  | cons c cs ih =>
    rw [scan_cons, Prod.mk.injEq] at h
    rw [List.cons_append, scan_cons, ih (Prod.ext rfl h.2), ← h.1, List.append_assoc]

end StringDiagram.Text

namespace StringDiagram.Dot
open Text

inductive Datum where
  | text (s : List Char)
  /-- What stands between the outer brackets. -/
  | markup (s : List Char)
deriving DecidableEq

inductive Token where
  | datum (d : Datum)
  | keyword (s : List Char)
  | arrow
  | equals
  | colon
  | opening
  | closing
  | start
  | stop
deriving DecidableEq

/-- Where the scanner is. A quoted string may be right behind a backslash that is not escaped, which does not
count as part of it yet. -/
inductive Spot where
  | between
  | word (s : List Char)
  | quoted (s : List Char) (escaping : Bool)
  | markup (s : List Char) (depth : Nat)
  | lost
deriving DecidableEq

def isPlain (c : Char) : Bool := isNameStart c || c.isDigit || c == '.'

def enter (c : Char) : List Token × Spot :=
  if isPlain c || c == '-' then ([], .word [c])
  else match c with
    | ' ' | '\t' | '\n' | '\r' => ([], .between)
    | '"' => ([], .quoted [] false)
    | '<' => ([], .markup [] 0)
    | '=' => ([.equals], .between)
    | ':' => ([.colon], .between)
    | '[' => ([.opening], .between)
    | ']' => ([.closing], .between)
    | '\x7b' => ([.start], .between)
    | '\x7d' => ([.stop], .between)
    | _ => ([], .lost)

def wordToken (s : List Char) : Option Token :=
  if keywords.contains (s.map Char.toLower) then some (.keyword (s.map Char.toLower))
  else if isName s || isNumeral s then some (.datum (.text s))
  else none

def endWord (s : List Char) (c : Char) : List Token × Spot :=
  match wordToken s with
  | some t => (t :: (enter c).1, (enter c).2)
  | none => ([], .lost)

def stepQuoted (s : List Char) (escaping : Bool) (c : Char) : List Token × Spot :=
  if escaping then
    if c = '"' then ([], .quoted (s ++ ['"']) false)
    else if c = '\n' then ([], .quoted s false)
    else ([], .quoted (s ++ ['\\', c]) false)
  else if c = '"' then ([.datum (.text s)], .between)
  else if c = '\\' then ([], .quoted s true)
  else ([], .quoted (s ++ [c]) false)

def stepMarkup (s : List Char) (depth : Nat) (c : Char) : List Token × Spot :=
  if c = '<' then ([], .markup (s ++ [c]) (depth + 1))
  -- A comment could start here, and in a comment brackets do not count.
  else if c = '!' ∧ s.getLast? = some '<' then ([], .lost)
  else if c ≠ '>' then ([], .markup (s ++ [c]) depth)
  else if depth = 0 then ([.datum (.markup s)], .between)
  else ([], .markup (s ++ [c]) (depth - 1))

def step : Spot → Char → List Token × Spot
  | .between, c => enter c
  | .word s, c =>
    if isPlain c then ([], .word (s ++ [c]))
    else if s = ['-'] ∧ c = '>' then ([.arrow], .between)
    else endWord s c
  | .quoted s escaping, c => stepQuoted s escaping c
  | .markup s depth, c => stepMarkup s depth c
  | .lost, _ => ([], .lost)

def tokens (cs : List Char) : Option (List Token) :=
  match scan step .between cs with
  | (ts, .between) => some ts
  | _ => none

def datum? (u : List Char) : Option Datum :=
  match scan step .between (u ++ [' ']) with
  | ([.datum d], .between) => some d
  | _ => none

def written? (s : List Char) : Option Datum := datum? (quote s)

def Delimits (c : Char) : Prop := isPlain c = false ∧ c ≠ '>'

instance (c : Char) : Decidable (Delimits c) := inferInstanceAs (Decidable (_ ∧ _))

def Yields (u : List Char) (ts : List Token) : Prop := ∀ c cs, Delimits c →
  scan step .between (u ++ c :: cs) = (ts ++ (scan step .between (c :: cs)).1, (scan step .between (c :: cs)).2)

section Yields
variable {u v w s : List Char} {ts ts' : List Token} {t : Token} {c : Char} {d : Datum} {q : Spot}

theorem enter_of_plain (h : (isPlain c || c == '-') = true) : enter c = ([], .word [c]) :=
  if_pos h

theorem enter_newline : enter '\n' = ([], .between) := rfl

theorem Yields.nil : Yields [] [] := fun _ _ _ => rfl

theorem Yields.append (h : Yields u ts) (hc : Delimits c) (h' : Yields (c :: v) ts') :
    Yields (u ++ c :: v) (ts ++ ts') := by
  intro c' cs hc'
  rw [List.append_assoc, List.cons_append, h c (v ++ c' :: cs) hc, ← List.cons_append, h' c' cs hc',
    List.append_assoc]

theorem Yields.blank (hc : enter c = ([], .between)) (h : Yields v ts) : Yields (c :: v) ts := by
  intro c' cs hc'
  rw [List.cons_append, scan_cons, step, hc, h c' cs hc']
  rfl

theorem Yields.mark (hc : enter c = ([t], .between)) (h : Yields v ts) : Yields (c :: v) (t :: ts) := by
  intro c' cs hc'
  rw [List.cons_append, scan_cons, step, hc, h c' cs hc']
  rfl

theorem Yields.arrow (h : Yields v ts) : Yields ('-' :: '>' :: v) (.arrow :: ts) := by
  intro c cs hc
  rw [List.cons_append, List.cons_append, scan_cons, scan_cons, step, (rfl : enter '-' = ([], .word ['-']))]
  exact congrArg (fun x : List Token × Spot => (Token.arrow :: x.1, x.2)) (h c cs hc)

theorem Yields.scan_eq (h : Yields u ts) (hc : Delimits c) (hq : enter c = (ts', .between)) :
    scan step .between (u ++ [c]) = (ts ++ ts', .between) := by
  rw [h c [] hc, scan_cons, step, hq, scan_nil, List.append_nil]

theorem endWord_of_token (h : wordToken s = some t) (c : Char) : endWord s c = (t :: (enter c).1, (enter c).2) := by
  rw [endWord, h]

theorem step_word (hc : Delimits c) : step (.word s) c = endWord s c := by
  rw [step, if_neg (by simp [hc.1]), if_neg (by simp [hc.2])]

theorem yields_of_scan_between (h : scan step .between u = (ts, .between)) : Yields u ts :=
  fun _ _ _ => scan_append h rfl

theorem yields_of_scan_word (h : scan step .between u = (ts, .word s)) (ht : wordToken s = some t) :
    Yields u (ts ++ [t]) := by
  intro c cs hc
  refine (scan_append h (b := t :: (scan step .between (c :: cs)).1) ?_).trans (by rw [List.append_assoc]; rfl)
  rw [scan_cons, step_word hc, endWord_of_token ht, scan_cons, step]
  rfl

/-- What is read as a datum before a blank is read so wherever it stands. -/
theorem yields_datum (h : datum? u = some d) : Yields u [.datum d] := by
  rw [datum?] at h
  split at h
  · next hscan =>
    cases h
    rcases hq : scan step .between u with ⟨ts, q⟩
    have hend := (scan_append hq (rfl : scan step q [' '] = _)).symm.trans hscan
    rw [Prod.mk.injEq] at hend
    obtain ⟨hts, hlast⟩ := hend
    -- Only between tokens and behind a word does a blank lead between tokens.
    cases q with
    | between =>
      obtain rfl : ts = [.datum d] := (List.append_nil ts).symm.trans hts
      exact yields_of_scan_between hq
    | word w =>
      cases ht : wordToken w with
      | none =>
        rw [step_word (by decide), endWord, ht] at hlast
        cases hlast
      | some t =>
        rw [step_word (by decide), endWord_of_token ht] at hts
        exact hts ▸ yields_of_scan_word hq ht
    | quoted w escaping => cases escaping <;> cases hlast
    | markup w depth => cases hlast
    | lost => cases hlast
  · cases h

/-- The written form of a text is read as its datum wherever it stands. -/
theorem yields_written (h : written? s = some d) : Yields (quote s) [.datum d] := yields_datum h

end Yields

section Words
variable {s u w : List Char} {c : Char}

theorem scan_plain (h : ∀ c ∈ u, isPlain c = true) : scan step (.word w) u = ([], .word (w ++ u)) := by
  induction u generalizing w with
  | nil => simp
  | cons c cs ih =>
    have hc : step (.word w) c = ([], .word (w ++ [c])) := if_pos (h c List.mem_cons_self)
    rw [scan_cons, hc, ih fun d hd => h d (List.mem_cons_of_mem _ hd)]
    simp

def IsWord : List Char → Prop
  | [] => False
  | c :: cs => (isPlain c || c == '-') = true ∧ ∀ d ∈ cs, isPlain d = true

theorem IsWord.scan_eq (h : IsWord s) : scan step .between s = ([], .word s) := by
  cases s with
  | nil => exact h.elim
  | cons c cs => rw [scan_cons, step, enter_of_plain h.1, scan_plain h.2]; rfl

theorem isPlain_of_isDigit (h : c.isDigit = true) : isPlain c = true := by simp [isPlain, h]

theorem isPlain_of_isUnsigned (h : isUnsigned s = true) : s ≠ [] ∧ ∀ c ∈ s, isPlain c = true := by
  unfold isUnsigned at h
  split at h
  · next cs =>
    rw [Bool.and_eq_true, List.all_eq_true] at h
    exact ⟨nofun, List.forall_mem_cons.mpr ⟨rfl, fun c hc => isPlain_of_isDigit (h.2 c hc)⟩⟩
  · next cs _ =>
    rw [Bool.and_eq_true] at h
    refine ⟨fun hs => by simp [hs] at h, fun c hc => ?_⟩
    rw [← List.takeWhile_append_dropWhile (p := Char.isDigit) (l := s), List.mem_append] at hc
    rcases hc with hc | hc
    · exact isPlain_of_isDigit (List.mem_takeWhile_imp hc)
    · replace h := h.2
      split at h
      · next heq => simp [heq] at hc
      · next ds heq =>
        rw [heq] at hc
        rcases List.mem_cons.mp hc with rfl | hc
        · rfl
        · exact isPlain_of_isDigit (List.all_eq_true.mp h c hc)
      · cases h

theorem isWord_of_forall (hs : s ≠ []) (h : ∀ c ∈ s, isPlain c = true) : IsWord s := by
  cases s with
  | nil => exact hs rfl
  | cons c cs =>
    obtain ⟨hc, hcs⟩ := List.forall_mem_cons.mp h
    exact ⟨by rw [hc, Bool.true_or], hcs⟩

theorem isWord_of_wordToken (h : (isName s || isNumeral s) = true) : IsWord s := by
  rcases Bool.or_eq_true _ _ ▸ h with h | h
  · cases s with
    | nil => cases h
    | cons c cs =>
      rw [isName, Bool.and_eq_true, List.all_eq_true] at h
      refine ⟨by simp [isPlain, h.1], fun d hd => ?_⟩
      rw [isPlain, h.2 d hd, Bool.true_or]
  · unfold isNumeral at h
    split at h
    · next cs => exact ⟨rfl, (isPlain_of_isUnsigned h).2⟩
    · exact isWord_of_forall (isPlain_of_isUnsigned h).1 (isPlain_of_isUnsigned h).2

end Words

section Written
variable {s : List Char} {d : Datum}

theorem written?_eq_some : written? s = some d ↔
    scan step .between (quote s ++ [' ']) = ([.datum d], .between) := by
  unfold written? datum?
  constructor
  · intro h
    split at h
    · next hscan => exact Option.some.inj h ▸ hscan
    · cases h
  · intro h
    rw [h]

theorem eq_of_wordToken (h : wordToken s = some (.datum d)) : d = .text s := by
  unfold wordToken at h
  split at h
  · cases h
  · split at h <;> cases h
    rfl

theorem word_of_identifier (h : isIdentifier s = true) (hl : s.getLast? ≠ some '\n') :
    IsWord s ∧ wordToken s = some (.datum (.text s)) := by
  simp only [isIdentifier, beq_iff_eq, hl, if_false, Bool.and_eq_true, Bool.not_eq_true'] at h
  refine ⟨isWord_of_wordToken h.1, ?_⟩
  rw [wordToken, h.2, h.1]
  rfl

theorem written?_identifier (h : isIdentifier s = true) (hl : s.getLast? ≠ some '\n') :
    written? s = some (.text s) := by
  obtain ⟨hs, ht⟩ := word_of_identifier h hl
  rw [written?_eq_some, quote_of_identifier h]
  exact (yields_of_scan_word hs.scan_eq ht).scan_eq (by decide) rfl

/-- A line break after a word is not read. -/
theorem written?_broken (h : isIdentifier s = true) (hl : s.getLast? = some '\n') :
    written? s ≠ some (.text s) := by
  intro hw
  have hs := h
  simp only [isIdentifier, hl, beq_self_eq_true, if_true, Bool.and_eq_true] at hs
  have hscan : scan step .between (s.dropLast ++ ['\n']) = endWord s.dropLast '\n' := by
    refine scan_append (isWord_of_wordToken hs.1).scan_eq (b := (endWord s.dropLast '\n').1) ?_
    rw [scan_cons, step_word (by decide), scan_nil, List.append_nil]
    rfl
  rw [written?_eq_some, quote_of_identifier h] at hw
  rw [List.dropLast_append_getLast? '\n' hl] at hscan
  cases ht : wordToken s.dropLast with
  | none =>
    rw [endWord, ht] at hscan
    rw [scan_append hscan rfl] at hw
    cases hw
  | some t =>
    rw [endWord_of_token ht] at hscan
    rw [scan_append hscan rfl] at hw
    obtain rfl : t = .datum (.text s) := List.head_eq_of_cons_eq (Prod.mk.inj hw).1
    have hlen := congrArg List.length (Datum.text.inj (eq_of_wordToken ht))
    rw [List.length_dropLast] at hlen
    have hne : s ≠ [] := fun hnil => by simp [hnil] at hl
    have hpos := List.length_pos_iff.mpr hne
    omega

/-- What a quoted string holds whose text is `s`, if a backslash that is not escaped stands before. -/
def content : Bool → List Char → List Char
  | _, [] => []
  | false, '\\' :: cs => content true cs
  | true, '\\' :: cs => '\\' :: '\\' :: content false cs
  | _, '"' :: cs => '"' :: content false cs
  | true, '\n' :: cs => content false cs
  | true, c :: cs => '\\' :: c :: content false cs
  | false, c :: cs => c :: content false cs

def unpaired : Bool → List Char → Bool
  | escaping, [] => escaping
  | escaping, '\\' :: cs => unpaired (!escaping) cs
  | _, _ :: cs => unpaired false cs

theorem scan_escapeMarks (w : List Char) (escaping : Bool) (s : List Char) :
    scan step (.quoted w escaping) (escapeMarks escaping s) =
      ([], .quoted (w ++ content escaping s) (unpaired escaping s)) := by
  fun_induction escapeMarks escaping s generalizing w with
  | case1 escaping => cases escaping <;> simp [content, unpaired]
  | case2 escaping cs ih =>
    cases escaping
    · simpa [scan_cons, step, stepQuoted, content, unpaired] using ih w
    · simpa [scan_cons, step, stepQuoted, content, unpaired] using ih (w ++ ['\\', '\\'])
  | case3 escaping cs ih => cases escaping <;> simp [scan_cons, step, stepQuoted, ih, content, unpaired]
  | case4 escaping c cs hc hc' ih =>
    replace hc : c ≠ '\\' := hc
    replace hc' : c ≠ '"' := hc'
    cases escaping
    · simp [scan_cons, step, stepQuoted, ih, content, unpaired, hc, hc']
    · by_cases hn : c = '\n'
      · subst hn
        simp [scan_cons, step, stepQuoted, ih, content, unpaired]
      · simp [scan_cons, step, stepQuoted, ih, content, unpaired, hc', hn]

theorem written?_quoted (hm : isMarkup s = false) (hi : isIdentifier s = false) :
    written? s = if unpaired false s then none else some (.text (content false s)) := by
  have hopen : scan step .between ('"' :: escapeMarks false s) =
      ([], .quoted (content false s) (unpaired false s)) := by
    have hmark : step .between '"' = ([], .quoted [] false) := rfl
    rw [scan_cons, hmark, scan_escapeMarks]
    rfl
  have hquote : quote s ++ [' '] = '"' :: escapeMarks false s ++ ['"', ' '] := by
    simp [quote, hm, hi]
  rw [written?, datum?, hquote, scan_append hopen rfl]
  cases unpaired false s <;> rfl

theorem scan_lost (cs : List Char) : scan step .lost cs = ([], .lost) := by
  induction cs with
  | nil => rfl
  | cons c cs ih => rw [scan_cons, step, ih]; rfl

/-- What starts with an angle bracket is not read as plain text. -/
theorem scan_markup_ne (w cs : List Char) (n : Nat) (s : List Char) (ts : List Token) (q : Spot) :
    scan step (.markup w n) cs ≠ (.datum (.text s) :: ts, q) := by
  induction cs generalizing w n with
  | nil => exact nofun
  | cons c cs ih =>
    rw [scan_cons, step]
    fun_cases stepMarkup w n c with
    | case1 => exact ih _ _
    | case2 =>
      rw [scan_lost]
      exact nofun
    | case3 => exact ih _ _
    | case4 => exact nofun
    | case5 => exact ih _ _

theorem written?_markup (h : isMarkup s = true) (u : List Char) : written? s ≠ some (.text u) := by
  intro hw
  rw [written?_eq_some, quote, h, Bool.true_or, if_pos rfl] at hw
  cases s with
  | nil => cases h
  | cons c cs =>
    obtain rfl : c = '<' := by
      by_contra hc
      unfold isMarkup at h
      split at h
      · next heq => exact hc (List.cons.inj heq).1
      · cases h
    exact scan_markup_ne [] _ 0 u [] .between hw

end Written

end StringDiagram.Dot
