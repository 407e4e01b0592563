/-
Tokens of a statement: `Tokenize` of `cmd/gookv-cli/parser.go`.

An unquoted token ends before a semicolon, and at a semicolon it is empty: the loop does not go
on.  The splitter leaves one there when it takes the end of a word for the start of a hex literal.
`tokenizes_iff`: nothing else keeps the tokenizer from returning.
-/
import Gookv.CliStatements

namespace Cli

open List Mode Option

structure Token where
  raw : List Char
  value : List UInt8
  isHex : Bool
  deriving DecidableEq

inductive TokenError
  | unterminatedQuote (pos : ℕ)
  | unterminatedHex (pos : ℕ)
  | emptyHex (pos : ℕ)
  | invalidHex (raw : List Char)
  deriving DecidableEq

/-! ### The tokenizer -/

def unescape (c : Char) : List UInt8 :=
  if c = 'n' then [0x0A] else if c = 't' then [0x09]
  else if c = '\\' ∨ c = '"' then String.utf8EncodeChar c
  else 0x5C :: String.utf8EncodeChar c

def quotedBody : List Char → Option (List Char × List UInt8 × List Char)
  | [] => none
  | [c] => if c = '"' then some ([c], [], []) else none
  | c :: e :: rest =>
    if c = '\\' then
      (quotedBody rest).map fun r => (c :: e :: r.1, unescape e ++ r.2.1, r.2.2)
    else if c = '"' then some ([c], [], e :: rest)
    else (quotedBody (e :: rest)).map fun r => (c :: r.1, String.utf8EncodeChar c ++ r.2.1, r.2.2)

def isHexDigit (c : Char) : Bool :=
  '0' ≤ c ∧ c ≤ '9' ∨ 'a' ≤ c ∧ c ≤ 'f' ∨ 'A' ≤ c ∧ c ≤ 'F'

def hexValue (c : Char) : UInt8 :=
  UInt8.ofNat (if c ≤ '9' then c.toNat - 48 else if c ≤ 'F' then c.toNat - 55 else c.toNat - 87)

def pairUp : List Char → List UInt8
  | a :: b :: rest => (16 * hexValue a + hexValue b) :: pairUp rest
  | _ => []

def decodeHex (digits : List Char) : Option (List UInt8) :=
  if digits.all isHexDigit then some (pairUp (if digits.length % 2 = 1 then '0' :: digits else digits))
  else none

def isUnquoted (c : Char) : Bool := !isSpace c && c != ';' && c != '"'

def nextToken (pos : ℕ) (c : Char) (rest : List Char) : Except TokenError (Token × List Char) :=
  if c = '"' then
    match quotedBody rest with
    | none => .error (.unterminatedQuote pos)
    | some (body, value, rest) => .ok (⟨c :: body, value, false⟩, rest)
  else if (c = 'x' ∨ c = 'X') ∧ rest.head? = some apostrophe then
    let digits := rest.tail.takeWhile (· ≠ apostrophe)
    match rest.tail.dropWhile (· ≠ apostrophe) with
    | [] => .error (.unterminatedHex pos)
    | close :: rest =>
      let raw := c :: apostrophe :: (digits ++ [close])
      match decodeHex digits with
      | none => .error (.invalidHex raw)
      | some value => .ok (⟨raw, value, true⟩, rest)
  else if c = '0' ∧ (rest.head? = some 'x' ∨ rest.head? = some 'X') then
    let digits := rest.tail.takeWhile isHexDigit
    let raw := c :: (rest.take 1 ++ digits)
    if digits = [] then .error (.emptyHex pos)
    else
      match decodeHex digits with
      | none => .error (.invalidHex raw)
      | some value => .ok (⟨raw, value, true⟩, rest.tail.dropWhile isHexDigit)
  else
    let raw := (c :: rest).takeWhile isUnquoted
    .ok (⟨raw, raw.flatMap String.utf8EncodeChar, false⟩, (c :: rest).dropWhile isUnquoted)

def tokenize : ℕ → ℕ → List Char → Option (Except TokenError (List Token))
  | 0, _, _ => none
  | _ + 1, _, [] => some (.ok [])
  | fuel + 1, pos, c :: rest =>
    if isSpace c then tokenize fuel (pos + 1) rest
    else
      match nextToken pos c rest with
      | .error e => some (.error e)
      | .ok (t, rest) =>
        (tokenize fuel (pos + t.raw.length) rest).map fun r => r.map (t :: ·)

/-- The statement is the raw texts with blanks between them. -/
inductive Renders : List Char → List Token → Prop
  | nil : Renders [] []
  | space {c : Char} {s : List Char} {ts : List Token} :
    isSpace c = true → Renders s ts → Renders (c :: s) ts
  | token {t : Token} {s : List Char} {ts : List Token} :
    t.raw ≠ [] → (t.raw.all (! isSpace ·) = true ∨ t.raw.head? = some '"' ∨ t.isHex = true) →
      Renders s ts → Renders (t.raw ++ s) (t :: ts)

theorem tokenize_semicolon (fuel pos : ℕ) (rest : List Char) :
    tokenize fuel pos (';' :: rest) = none := by
  induction fuel with
  | zero => rfl
  | succ fuel ih =>
    have hnext : nextToken pos ';' rest = .ok (⟨[], [], false⟩, ';' :: rest) := by
      have hraw : isUnquoted ';' = false := by decide
      simp [nextToken, hraw]
    rw [tokenize, if_neg (by decide), hnext]
    show (tokenize fuel pos (';' :: rest)).map _ = none
    rw [ih]
    rfl

def ends : Mode → List Char → Bool
  | _, [] => false
  | m, c :: rest => (m.isOpen && c == ';') || ends (m.next c) rest

/-- Every `x` before an apostrophe is at the start, or behind a blank, a quote or a semicolon. -/
def Separated (text : List Char) : Prop :=
  ∀ l a c r, text = l ++ a :: c :: apostrophe :: r → c = 'x' ∨ c = 'X' →
    isSpace a = true ∨ a = '"' ∨ a = ';'

variable {t rest s : List Char} {m : Mode} {pos : ℕ}

theorem Separated.of_isInfix (h : Separated t) (hs : s <:+: t) : Separated s := by
  obtain ⟨p, q, rfl⟩ := hs
  rintro l a c r rfl hx
  exact h (p ++ l) a c (r ++ q) (by simp) hx

theorem ends_append (h : ends m (s ++ t) = false) :
    ends m s = false := by
  induction s generalizing m with
  | nil => rfl
  | cons c s ih =>
    rw [cons_append, ends, Bool.or_eq_false_iff] at h
    rw [ends, h.1, ih h.2]
    rfl

variable {c : Char} {raw : List Char}

theorem ends_space (hc : isSpace c = true) (s : List Char) :
    ends .outside (c :: s) = ends .outside s := by
  have hmode : Mode.next .outside c = .outside := by
    have hquote : c ≠ '"' := by rintro rfl; revert hc; decide
    have hx : ¬ (c = 'x' ∨ c = 'X') := by rintro (rfl | rfl) <;> revert hc <;> decide
    rw [Mode.next, if_neg hquote, if_neg hx]
  have hsemi : c ≠ ';' := by rintro rfl; revert hc; decide
  rw [ends, hmode]
  simp [hsemi]

theorem ends_trimSpace (h : ends .outside s = false) :
    ends .outside (trimSpace s) = false := by
  have hdrop : ends .outside (s.dropWhile isSpace) = false := by
    induction s with
    | nil => rfl
    | cons c s ih =>
      rw [dropWhile_cons]
      split
      · next hc => exact ih (by rwa [ends_space hc] at h)
      · exact h
  obtain ⟨t, ht⟩ := rdropWhile_prefix isSpace (s.dropWhile isSpace)
  rw [← ht] at hdrop
  exact ends_append hdrop

theorem isInfix_trimSpace (s : List Char) : trimSpace s <:+: s :=
  ( rdropWhile_prefix _ _).isInfix.trans (dropWhile_suffix _).isInfix

theorem ends_concat (m : Mode) (s : List Char) (c : Char) :
    ends m (s ++ [c]) = (ends m s || (s.foldl Mode.next m).isOpen && c == ';') := by
  induction s generalizing m with
  | nil => simp [ends]
  | cons d s ih => rw [cons_append, ends, ih, ends, foldl_cons, Bool.or_assoc]

theorem scan_spec {buf : List Char} (text : List Char)
    (hm : buf.foldl Mode.next .outside = m) (hbuf : ends .outside buf = false) :
    ∀ s ∈ (scan m buf text).1, s <:+: buf ++ text ∧ ends .outside s = false := by
  induction text generalizing m buf with
  | nil => exact fun s hs => absurd hs not_mem_nil
  | cons c text ih =>
    rw [scan]
    split
    · intro s hs
      rcases mem_cons.mp hs with rfl | hs
      · exact ⟨(isInfix_trimSpace buf).trans (prefix_append _ _).isInfix, ends_trimSpace hbuf⟩
      · obtain ⟨hin, hends⟩ := @ih .outside [] rfl rfl s hs
        refine ⟨hin.trans ?_, hends⟩
        exact ⟨buf ++ [c], [], by simp⟩
    · next hopen =>
      intro s hs
      have hs' := ih (by rw [foldl_append, hm]; rfl) (by
        rw [ends_concat, hbuf, hm]
        simpa using hopen) s hs
      rwa [append_assoc, singleton_append] at hs'

/-! ### Where the tokenizer agrees with the splitter -/

theorem quotedBody_spec {body : List Char} {value : List UInt8}
    (h : quotedBody s = some (body, value, rest)) :
    s = body ++ rest ∧ ends .quoted s = ends .outside rest := by
  fun_induction quotedBody s generalizing body value with
  | case1 => cases h
  | case2 => cases h; exact ⟨rfl, rfl⟩
  | case3 c hc => cases h
  | case4 e s ih =>
    obtain ⟨r, hr, heq⟩ := Option.map_eq_some_iff.mp h
    cases heq
    exact ⟨by rw [(ih hr).1]; rfl, (ih hr).2⟩
  | case5 e s hc => cases h; exact ⟨rfl, rfl⟩
  | case6 c e s hc hq ih =>
    obtain ⟨r, hr, heq⟩ := Option.map_eq_some_iff.mp h
    cases heq
    have hnext : Mode.next .quoted c = .quoted := by rw [Mode.next, if_neg hc, if_neg hq]
    refine ⟨by rw [(ih hr).1]; rfl, ?_⟩
    rw [ends, hnext, (ih hr).2]
    rfl

theorem ends_hex {close : Char}
    (h : s.dropWhile (· ≠ apostrophe) = close :: rest) : ends .hex s = ends .outside rest := by
  induction s with
  | nil => cases h
  | cons c s ih =>
    rw [dropWhile_cons] at h
    by_cases hc : c = apostrophe
    · rw [if_neg (by simp [hc])] at h
      cases h
      rw [ends, Mode.next, if_pos hc]
      rfl
    · rw [if_pos (by simp [hc])] at h
      rw [ends, Mode.next, if_neg hc, ih h]
      rfl

theorem ends_of_plain (hm : m.isOpen = true) (hq : '"' ∉ raw)
    (hhead : m = .afterX → raw.head? ≠ some apostrophe)
    (hhex : ∀ l c r, raw = l ++ c :: apostrophe :: r → ¬ (c = 'x' ∨ c = 'X'))
    (h : ends m (raw ++ rest) = false) :
    (raw.foldl Mode.next m).isOpen = true ∧ ends (raw.foldl Mode.next m) rest = false := by
  induction raw generalizing m with
  | nil => exact ⟨hm, h⟩
  | cons c raw ih =>
    rw [cons_append, ends, Bool.or_eq_false_iff] at h
    have hnot : c ≠ '"' := fun hc => hq (by simp [hc])
    have hnext : m.next c = if c = 'x' ∨ c = 'X' then .afterX else .outside := by
      cases m with
      | outside => rw [Mode.next, if_neg hnot]
      | afterX => rw [Mode.next, if_neg fun hc => hhead rfl (by rw [hc]; rfl), if_neg hnot]
      | _ => cases hm
    refine ih ?_ (fun hmem => hq (mem_cons_of_mem _ hmem)) ?_
      (fun l d r heq => hhex (c :: l) d r (by rw [heq]; rfl)) h.2
    · rw [hnext]
      split <;> rfl
    · intro hafter hhead'
      obtain ⟨r, rfl⟩ := List.head?_eq_some_iff.mp hhead'
      rw [hnext, if_neg (hhex [] c r rfl)] at hafter
      cases hafter

theorem ends_outside (hm : m.isOpen = true)
    (h : m = .afterX → rest.head? ≠ some apostrophe) (hends : ends m rest = false) :
    ends .outside rest = false := by
  cases m with
  | outside => exact hends
  | afterX =>
    cases rest with
    | nil => rfl
    | cons c rest =>
      have hc : c ≠ apostrophe := by simpa using h rfl
      rw [ends, Mode.next, if_neg hc] at hends
      exact hends
  | _ => cases hm

theorem eq_x_of_next (h : m.next c = .afterX) : c = 'x' ∨ c = 'X' := by
  by_contra hx
  cases m <;> simp only [Mode.next, if_neg hx] at h
  all_goals try split at h
  all_goals try split at h
  all_goals cases h

theorem ends_of_raw (hq : '"' ∉ raw)
    (hhex : ∀ l c r, raw = l ++ c :: apostrophe :: r → ¬ (c = 'x' ∨ c = 'X'))
    (hrest : (∃ l c, raw = l ++ [c] ∧ ¬ (c = 'x' ∨ c = 'X')) ∨ rest.head? ≠ some apostrophe)
    (h : ends .outside (raw ++ rest) = false) : ends .outside rest = false := by
  obtain ⟨hopen, hends⟩ := ends_of_plain (m := .outside) rfl hq (fun hm => noConfusion hm) hhex h
  refine ends_outside hopen (fun hafter => ?_) hends
  rcases hrest with ⟨l, c, rfl, hx⟩ | hhead
  · rw [foldl_append] at hafter
    exact absurd (eq_x_of_next hafter) hx
  · exact hhead

theorem isHexDigit_ne {d : Char} (hd : isHexDigit d = true) :
    d ≠ '"' ∧ d ≠ apostrophe ∧ ¬ (d = 'x' ∨ d = 'X') := by
  refine ⟨?_, ?_, not_or.mpr ⟨?_, ?_⟩⟩ <;> rintro rfl <;> revert hd <;> decide

theorem ends_digits {x : Char} (hx : x = 'x' ∨ x = 'X')
    (hne : s.takeWhile isHexDigit ≠ []) (hends : ends .outside ('0' :: x :: s) = false) :
    ends .outside (s.dropWhile isHexDigit) = false := by
  have hfront : ∀ a ∈ ['0', x], a ≠ '"' ∧ a ≠ apostrophe := by
    rcases hx with rfl | rfl <;> simp [apostrophe]
  have hraw : ∀ d ∈ ['0', x] ++ s.takeWhile isHexDigit, d ≠ '"' ∧ d ≠ apostrophe := by
    intro d hd
    rcases List.mem_append.mp hd with hd | hd
    · exact hfront d hd
    · have hdigit := isHexDigit_ne (List.mem_takeWhile_imp hd)
      exact ⟨hdigit.1, hdigit.2.1⟩
  refine ends_of_raw (fun hmem => (hraw _ hmem).1 rfl) (fun l d r heq => ?_) (.inl ?_)
    (by rwa [append_assoc, takeWhile_append_dropWhile])
  · have hmem : apostrophe ∈ l ++ d :: apostrophe :: r := by simp
    exact absurd rfl (hraw apostrophe (heq ▸ hmem)).2
  · have hlast := isHexDigit_ne (List.mem_takeWhile_imp (getLast_mem hne))
    refine ⟨['0', x] ++ (s.takeWhile isHexDigit).dropLast, _, ?_, hlast.2.2⟩
    rw [append_assoc, dropLast_concat_getLast]

theorem ends_unquoted (hsep : Separated (c :: s))
    (hx : ¬ ((c = 'x' ∨ c = 'X') ∧ s.head? = some apostrophe))
    (hends : ends .outside (c :: s) = false) :
    ends .outside ((c :: s).dropWhile isUnquoted) = false := by
  have happ := takeWhile_append_dropWhile (p := isUnquoted) (l := c :: s)
  have hraw : ∀ d ∈ (c :: s).takeWhile isUnquoted, isUnquoted d = true :=
    fun d hd => List.mem_takeWhile_imp hd
  refine ends_of_raw (fun hmem => ?_) (fun l d r heq hd => ?_) (.inr fun hhead => ?_)
    (by rwa [happ])
  · exact absurd (hraw _ hmem) (by decide)
  · rw [heq] at happ hraw
    rcases eq_nil_or_concat l with rfl | ⟨l, a, rfl⟩
    · obtain ⟨rfl, hs⟩ := List.cons.inj happ
      exact hx ⟨hd, by rw [← hs]; rfl⟩
    · have ha := hraw a (by simp)
      have hsplit : c :: s = l ++ a :: d :: apostrophe :: (r ++ (c :: s).dropWhile isUnquoted) := by
        nth_rewrite 1 [← happ]
        simp
      rcases hsep l a d _ hsplit hd with hspace | rfl | rfl
      · simp [isUnquoted, hspace] at ha
      · exact absurd ha (by decide)
      · exact absurd ha (by decide)
  · have hdrop := head?_dropWhile_not isUnquoted (c :: s)
    rw [hhead] at hdrop
    exact absurd hdrop (by decide)

/-- **A token is taken from the front of the text**, and is not empty but before a semicolon. -/
theorem nextToken_raw {t : Token} (hc : isSpace c = false) (hsemi : c ≠ ';')
    (h : nextToken pos c s = .ok (t, rest)) : c :: s = t.raw ++ rest ∧ t.raw ≠ [] ∧
      (t.raw.all (! isSpace ·) = true ∨ t.raw.head? = some '"' ∨ t.isHex = true) := by
  rw [nextToken] at h
  split at h
  · next hq =>
    split at h
    · cases h
    · next hbody =>
      cases h
      exact ⟨congrArg _ (quotedBody_spec hbody).1, cons_ne_nil _ _,
        .inr (.inl (by rw [hq]; rfl))⟩
  · next hq =>
    split at h
    · next hx =>
      dsimp only at h
      split at h
      · cases h
      · next close rest' hdrop =>
        split at h
        · cases h
        · cases h
          obtain ⟨s', rfl⟩ := List.head?_eq_some_iff.mp hx.2
          rw [tail_cons] at hdrop ⊢
          have happ := takeWhile_append_dropWhile (p := (· ≠ apostrophe)) (l := s')
          rw [hdrop] at happ
          refine ⟨?_, cons_ne_nil _ _, .inr (.inr rfl)⟩
          rw [cons_append, cons_append, append_assoc, singleton_append, happ]
    · split at h
      · dsimp only at h
        split at h
        · cases h
        · split at h
          · cases h
          · cases h
            refine ⟨?_, cons_ne_nil _ _, .inr (.inr rfl)⟩
            rw [cons_append, append_assoc, takeWhile_append_dropWhile]
            rw [← drop_one, take_append_drop]
      · cases h
        refine ⟨List.takeWhile_append_dropWhile.symm, by simp [isUnquoted, hc, hsemi, hq], .inl ?_⟩
        rw [List.all_eq_true]
        intro d hd
        have hd' := List.mem_takeWhile_imp hd
        simp only [isUnquoted, Bool.and_eq_true] at hd'
        exact hd'.1.1

/-- Behind a token the splitter is outside of literals, as the tokenizer is. -/
theorem ends_of_nextToken {t : Token}
    (hsep : Separated (c :: s)) (hends : ends .outside (c :: s) = false)
    (h : nextToken pos c s = .ok (t, rest)) : ends .outside rest = false := by
  rw [nextToken] at h
  split at h
  · next hq =>
    split at h
    · cases h
    · next hbody =>
      cases h
      rw [ends, Mode.next, if_pos hq, (quotedBody_spec hbody).2, Bool.or_eq_false_iff] at hends
      exact hends.2
  · next hq =>
    split at h
    · next hx =>
      dsimp only at h
      split at h
      · cases h
      · next close rest' hdrop =>
        split at h
        · cases h
        · cases h
          obtain ⟨s', rfl⟩ := List.head?_eq_some_iff.mp hx.2
          have hhex : ends .outside (c :: apostrophe :: s') = ends .hex s' := by
            rw [ends, Mode.next, if_neg hq, if_pos hx.1]
            rcases hx.1 with rfl | rfl <;> rfl
          rw [tail_cons] at hdrop
          rwa [hhex, ends_hex hdrop] at hends
    · next hx =>
      split at h
      · next h0 =>
        dsimp only at h
        split at h
        · cases h
        · next hne =>
          split at h
          · cases h
          · cases h
            obtain ⟨x, s', rfl, hx'⟩ : ∃ x s', s = x :: s' ∧ (x = 'x' ∨ x = 'X') := by
              rcases h0.2 with hhead | hhead <;>
                obtain ⟨s', rfl⟩ := List.head?_eq_some_iff.mp hhead
              · exact ⟨_, s', rfl, .inl rfl⟩
              · exact ⟨_, s', rfl, .inr rfl⟩
            exact ends_digits hx' hne (h0.1 ▸ hends)
      · cases h
        exact ends_unquoted hsep hx hends

/-- The tokenizer comes to a semicolon where a token would start. -/
inductive AtSemicolon : ℕ → List Char → Prop
  | here (pos : ℕ) (rest : List Char) : AtSemicolon pos (';' :: rest)
  | space {pos : ℕ} {c : Char} {s : List Char} :
    isSpace c = true → AtSemicolon (pos + 1) s → AtSemicolon pos (c :: s)
  | token {pos : ℕ} {c : Char} {s rest : List Char} {t : Token} :
    isSpace c = false → nextToken pos c s = .ok (t, rest) →
      AtSemicolon (pos + t.raw.length) rest → AtSemicolon pos (c :: s)

theorem tokenize_of_atSemicolon (h : AtSemicolon pos s) (fuel : ℕ) :
    tokenize fuel pos s = none := by
  induction h generalizing fuel with
  | here pos rest => exact tokenize_semicolon fuel pos rest
  | space hc _ ih =>
    cases fuel with
    | zero => rfl
    | succ fuel => rw [tokenize, if_pos hc, ih]
  | token hc hnext _ ih =>
    cases fuel with
    | zero => rfl
    | succ fuel =>
      rw [tokenize, if_neg (by simp [hc]), hnext]
      show (tokenize fuel _ _).map _ = none
      rw [ih]
      rfl

/-- `Tokenize` returns, with an error or with tokens that are the statement but for blanks. -/
def Tokenizes (pos : ℕ) (s : List Char) : Prop :=
  ∃ r, tokenize (s.length + 1) pos s = some r ∧ ∀ ts, r = .ok ts → Renders s ts

theorem tokenize_returns {fuel : ℕ} (hfuel : s.length < fuel) (hnot : ¬ AtSemicolon pos s) :
    ∃ r, tokenize fuel pos s = some r ∧ ∀ ts, r = .ok ts → Renders s ts := by
  induction fuel generalizing pos s with
  | zero => omega
  | succ fuel ih =>
    cases s with
    | nil => exact ⟨.ok [], rfl, fun ts hts => by cases hts; exact .nil⟩
    | cons c s =>
      rw [length_cons] at hfuel
      rw [tokenize]
      split
      · next hc =>
        obtain ⟨r, hr, hrenders⟩ := @ih s (pos + 1) (by omega) fun h => hnot (.space hc h)
        exact ⟨r, hr, fun ts hts => .space hc (hrenders ts hts)⟩
      · next hc =>
        rw [Bool.not_eq_true] at hc
        split
        · next e _ => exact ⟨.error e, rfl, fun ts hts => by cases hts⟩
        · next t rest hnext =>
          have hsemi : c ≠ ';' := fun h => hnot (h ▸ .here pos s)
          obtain ⟨happ, hne, hblank⟩ := nextToken_raw hc hsemi hnext
          have hlen : (c :: s).length = t.raw.length + rest.length := by
            rw [happ, length_append]
          have hpos : 0 < t.raw.length := length_pos_of_ne_nil hne
          rw [length_cons] at hlen
          obtain ⟨r, hr, hrenders⟩ := @ih rest (pos + t.raw.length) (by omega)
            fun h => hnot (.token hc hnext h)
          refine ⟨r.map (t :: ·), by rw [hr]; rfl, fun ts hts => ?_⟩
          cases r with
          | error e => cases hts
          | ok ts' =>
            cases hts
            rw [happ]
            exact .token hne hblank (hrenders ts' rfl)

theorem ends_of_atSemicolon (h : AtSemicolon pos s) (hsep : Separated s) :
    ends .outside s = true := by
  rw [← Bool.not_eq_false]
  intro hends
  induction h with
  | here pos rest => cases hends
  | space hc _ ih =>
    exact ih (hsep.of_isInfix (suffix_cons _ _).isInfix) (by rwa [ends_space hc] at hends)
  | @token pos c s rest t hc hnext _ ih =>
    have hsemi : c ≠ ';' := by
      rintro rfl
      cases hends
    have happ := (nextToken_raw hc hsemi hnext).1
    exact ih (hsep.of_isInfix ⟨t.raw, [], by simp [happ]⟩) (ends_of_nextToken hsep hends hnext)

/-- **On a statement of an input the tokenizer returns exactly when it comes to no semicolon at the
start of a token**; it does not, when the hex literals of the input stand apart from what is before
them. -/
theorem tokenizes_iff (input : List Char) (stmt : {s // s ∈ (splitStatements input).stmts})
    (pos : ℕ) : (Tokenizes pos stmt.1 ↔ ¬ AtSemicolon pos stmt.1) ∧
      (Separated input → ¬ AtSemicolon pos stmt.1) := by
  refine ⟨⟨?_, tokenize_returns (Nat.lt_succ_self _)⟩, fun hsep h => ?_⟩
  · rintro ⟨r, hr, -⟩ h
    rw [tokenize_of_atSemicolon h] at hr
    cases hr
  · obtain ⟨hin, hends⟩ := @scan_spec .outside [] input rfl rfl stmt.1 stmt.2
    exact absurd (ends_of_atSemicolon h (hsep.of_isInfix hin)) (by simp [hends])

/-- The text `ax';';`: its one statement is `ax';'`, and the token `ax'` leaves a semicolon. -/
theorem tokenize_diverges : (splitStatements ['a', 'x', apostrophe, ';', apostrophe, ';']).stmts =
        [['a', 'x', apostrophe, ';', apostrophe]] ∧
      ∀ fuel, tokenize fuel 0 ['a', 'x', apostrophe, ';', apostrophe] = none := by
  refine ⟨by decide, fun fuel => ?_⟩
  cases fuel with
  | zero => rfl
  | succ fuel =>
    have hnext : nextToken 0 'a' ['x', apostrophe, ';', apostrophe] =
        .ok (⟨['a', 'x', apostrophe], [0x61, 0x78, 0x27], false⟩, [';', apostrophe]) := by decide
    rw [tokenize, if_neg (by decide), hnext]
    show (tokenize fuel 3 (';' :: [apostrophe])).map _ = none
    rw [tokenize_semicolon]
    rfl

end Cli
