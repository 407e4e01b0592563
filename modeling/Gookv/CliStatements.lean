/-
Statements of the command line: `SplitStatements` of `cmd/gookv-cli/parser.go`, and `runPipe` and
`runREPL` of `repl.go`.

The buffer is split again after every line, and is kept when a statement is left open, together
with the statements before it that were executed already.  `executed_once_iff` says for which
lines every statement is executed once.
-/
import Mathlib

namespace Cli

open List

def isSpace (c : Char) : Bool :=
  c.toNat ∈ [0x09, 0x0A, 0x0B, 0x0C, 0x0D, 0x20, 0x85, 0xA0, 0x1680, 0x2028, 0x2029, 0x202F,
    0x205F, 0x3000] ∨ 0x2000 ≤ c.toNat ∧ c.toNat ≤ 0x200A

def trimSpace (text : List Char) : List Char := (text.dropWhile isSpace).rdropWhile isSpace

def apostrophe : Char := Char.ofNat 0x27

/-- Where the splitter is: `afterX` is outside of literals behind an `x`, `escaped` behind a
backslash. -/
inductive Mode
  | outside
  | afterX
  | quoted
  | escaped
  | hex
  deriving DecidableEq

def Mode.isOpen : Mode → Bool
  | .outside => true
  | .afterX => true
  | _ => false

def Mode.next (m : Mode) (c : Char) : Mode :=
  match m with
  | .escaped => .quoted
  | .quoted => if c = '\\' then .escaped else if c = '"' then .outside else .quoted
  | .hex => if c = apostrophe then .outside else .hex
  | .afterX =>
    if c = apostrophe then .hex else if c = '"' then .quoted
    else if c = 'x' ∨ c = 'X' then .afterX else .outside
  | .outside => if c = '"' then .quoted else if c = 'x' ∨ c = 'X' then .afterX else .outside

def scan : Mode → List Char → List Char → List (List Char) × Mode × List Char
  | m, buf, [] => ([], m, buf)
  | m, buf, c :: rest =>
    if m.isOpen ∧ c = ';' then
      let r := scan .outside [] rest
      (trimSpace buf :: r.1, r.2)
    else scan (m.next c) (buf ++ [c]) rest

structure Split where
  stmts : List (List Char)
  remainder : List Char
  complete : Bool

def splitStatements (input : List Char) : Split :=
  let r := scan .outside [] input
  ⟨r.1, trimSpace r.2.2, trimSpace r.2.2 = []⟩

def execute (stops : List Char → Bool) : List (List Char) → List (List Char) × Bool
  | [] => ([], false)
  | s :: stmts =>
    if stops s then ([s], true)
    else
      let r := execute stops stmts
      (s :: r.1, r.2)

def accumulate (buf line : List Char) : List Char :=
  if buf = [] then line else buf ++ ' ' :: line

def runLines (stops : List Char → Bool) : List Char → List (List Char) → List (List Char)
  | _, [] => []
  | buf, line :: lines =>
    let split := splitStatements (accumulate buf line)
    let r := execute stops split.stmts
    if r.2 then r.1
    else r.1 ++ runLines stops (if split.complete then [] else accumulate buf line) lines

/-- `bufio.Scanner` gives up at a line of 64 KiB or more. -/
def fitsScanner (line : List Char) : Bool := (line.map Char.utf8Size).sum < 64 * 1024

def runPipe (fails exits : List Char → Bool) (lines : List (List Char)) : List (List Char) :=
  runLines (fun s => fails s || exits s) [] (lines.takeWhile fitsScanner)

def isMetaCommand (line : List Char) : Bool := (trimSpace line).head? = some '\\'

def runREPL (exits : List Char → Bool) (lines : List (List Char)) : List (List Char) :=
  runLines exits [] (lines.filter fun line => !isMetaCommand line)

def joined : List (List Char) → List Char
  | [] => []
  | [line] => line
  | line :: lines => line ++ ' ' :: joined lines

/-- Up to the line with which the session ends, no line but the last leaves a statement open behind
others that have ended in the buffer. -/
def tidy (exits : List Char → Bool) : List Char → List (List Char) → Bool
  | _, [] => true
  | buf, line :: lines =>
    let split := splitStatements (accumulate buf line)
    split.stmts.any exits || lines.isEmpty ||
      if split.complete then tidy exits [] lines
      else split.stmts.isEmpty && tidy exits (accumulate buf line) lines

/-- No statement follows one that ends the session. -/
def ExitsLast (exits : List Char → Bool) (stmts : List (List Char)) : Prop :=
  ∀ s ∈ stmts.dropLast, exits s = false

theorem scan_append (m : Mode) (buf a b : List Char) :
    scan m buf (a ++ b) = ((scan m buf a).1 ++ (scan (scan m buf a).2.1 (scan m buf a).2.2 b).1,
      (scan (scan m buf a).2.1 (scan m buf a).2.2 b).2) := by
  induction a generalizing m buf with
  | nil => rfl
  | cons c a ih =>
    rw [cons_append, scan, scan]
    split
    · rw [ih]
      rfl
    · exact ih _ _

def Blank (text : List Char) : Prop := ∀ c ∈ text, isSpace c = true

variable {w : List Char}

theorem trimSpace_blank_append (hw : Blank w) (text : List Char) :
    trimSpace (w ++ text) = trimSpace text := by
  rw [trimSpace, trimSpace, dropWhile_append_of_pos hw]

theorem blank_of_trimSpace_eq_nil {text : List Char} (h : trimSpace text = []) : Blank text := by
  rw [trimSpace, rdropWhile_eq_nil_iff] at h
  rw [← takeWhile_append_dropWhile (p := isSpace) (l := text)]
  intro c hc
  rcases mem_append.mp hc with hc | hc
  · exact mem_takeWhile_imp hc
  · exact h c hc

theorem scan_blank (hw : Blank w) (m : Mode) (buf text : List Char) :
    (scan m (w ++ buf) text).1 = (scan m buf text).1 := by
  induction text generalizing m buf with
  | nil => rfl
  | cons c text ih =>
    rw [scan, scan]
    split
    · rw [trimSpace_blank_append hw]
    · rw [append_assoc]
      exact ih _ _

theorem scan_not_blank {m : Mode} {buf : List Char} (text : List Char)
    (h : m ≠ .outside → ∃ c ∈ buf, isSpace c = false) :
    (scan m buf text).2.1 ≠ .outside → ∃ c ∈ (scan m buf text).2.2, isSpace c = false := by
  induction text generalizing m buf with
  | nil => exact h
  | cons c text ih =>
    rw [scan]
    split
    · exact ih fun hne => absurd rfl hne
    · refine ih fun hne => ?_
      by_cases hm : m = .outside
      · subst hm
        refine ⟨c, by simp, ?_⟩
        by_contra hspace
        refine hne ?_
        rw [Bool.not_eq_false] at hspace
        have hquote : c ≠ '"' := by rintro rfl; revert hspace; decide
        have hx : ¬ (c = 'x' ∨ c = 'X') := by rintro (rfl | rfl) <;> revert hspace <;> decide
        rw [Mode.next, if_neg hquote, if_neg hx]
      · obtain ⟨d, hd, hspace⟩ := h hm
        exact ⟨d, mem_append_left _ hd, hspace⟩

theorem stmts_append {a : List Char} (h : (splitStatements a).complete = true) (b : List Char) :
    (splitStatements (a ++ b)).stmts = (splitStatements a).stmts ++ (splitStatements b).stmts := by
  have hblank := blank_of_trimSpace_eq_nil (of_decide_eq_true h)
  have hmode : (scan .outside [] a).2.1 = .outside := by
    by_contra hne
    obtain ⟨c, hc, hspace⟩ := scan_not_blank a (fun hne => absurd rfl hne) hne
    rw [hblank c hc] at hspace
    cases hspace
  show (scan .outside [] (a ++ b)).1 = _
  have hscan := scan_blank hblank .outside [] b
  rw [append_nil] at hscan
  rw [scan_append, hmode]
  exact congrArg (_ ++ ·) hscan

theorem stmts_space (b : List Char) :
    (splitStatements (' ' :: b)).stmts = (splitStatements b).stmts :=
  stmts_append (a := [' ']) (by decide) b

/-! ### Runs -/

variable {exits : List Char → Bool} {stmts stmts' : List (List Char)}

theorem ExitsLast.append (h : ∀ s ∈ stmts, exits s = false) (h' : ExitsLast exits stmts') :
    ExitsLast exits (stmts ++ stmts') := by
  intro s hs
  rcases stmts'.eq_nil_or_concat' with rfl | ⟨l, x, rfl⟩
  · rw [append_nil] at hs
    exact h s (mem_of_mem_dropLast hs)
  · rw [← append_assoc, dropLast_concat] at hs
    rcases mem_append.mp hs with hs | hs
    · exact h s hs
    · exact h' s (by rwa [dropLast_concat])

theorem ExitsLast.of_append (h : ExitsLast exits (stmts ++ stmts')) : ExitsLast exits stmts' := by
  intro s hs
  refine h s ?_
  rcases stmts'.eq_nil_or_concat' with rfl | ⟨l, x, rfl⟩
  · cases hs
  · rw [dropLast_concat] at hs
    rw [← append_assoc, dropLast_concat]
    exact mem_append_right _ hs

theorem execute_of_none (h : ∀ s ∈ stmts, exits s = false) :
    execute exits stmts = (stmts, false) := by
  induction stmts with
  | nil => rfl
  | cons s stmts ih =>
    rw [execute, if_neg (by simp [h s mem_cons_self]), ih fun s hs => h s (mem_cons_of_mem _ hs)]

theorem execute_exitsLast (exits : List Char → Bool) (stmts : List (List Char)) :
    ExitsLast exits (execute exits stmts).1 ∧
      ((execute exits stmts).2 = false → ∀ s ∈ (execute exits stmts).1, exits s = false) := by
  induction stmts with
  | nil => exact ⟨nofun, nofun⟩
  | cons s stmts ih =>
    rw [execute]
    split
    · exact ⟨nofun, nofun⟩
    · next hs =>
      rw [Bool.not_eq_true] at hs
      refine ⟨@ExitsLast.append exits [s] _ (by simpa using hs) ih.1, fun hend s' hs' => ?_⟩
      rcases mem_cons.mp hs' with rfl | hs'
      · exact hs
      · exact ih.2 hend s' hs'

/-- A session that ends with its last statement executes all of them. -/
theorem execute_of_any (h : stmts.any exits = true) (hlast : ExitsLast exits stmts) :
    execute exits stmts = (stmts, true) := by
  rcases stmts.eq_nil_or_concat' with rfl | ⟨l, x, rfl⟩
  · cases h
  · rw [ExitsLast, dropLast_concat] at hlast
    have hx : exits x = true := by
      rw [any_append, any_eq_false.mpr fun s hs => by simp [hlast s hs]] at h
      simpa using h
    induction l with
    | nil => simp [execute, hx]
    | cons s l ih =>
      rw [cons_append, execute, if_neg (by simp [hlast s mem_cons_self]),
        ih (by simp [hx]) fun s hs => hlast s (mem_cons_of_mem _ hs)]

theorem runLines_exitsLast (exits : List Char → Bool) (buf : List Char) (lines : List (List Char)) :
    ExitsLast exits (runLines exits buf lines) := by
  induction lines generalizing buf with
  | nil => exact nofun
  | cons line lines ih =>
    obtain ⟨hlast, hnone⟩ :=
      execute_exitsLast exits (splitStatements (accumulate buf line)).stmts
    rw [runLines]
    split
    · exact hlast
    · next hend => exact ExitsLast.append (hnone (by simpa using hend)) (ih _)

theorem joined_cons (buf line : List Char) (lines : List (List Char)) :
    joined (buf :: line :: lines) = buf ++ ' ' :: joined (line :: lines) := rfl

/-- What has ended in the buffer has ended in the whole text. -/
theorem stmts_prefix_joined (buf : List Char) (lines : List (List Char)) :
    (splitStatements buf).stmts <+: (splitStatements (joined (buf :: lines))).stmts := by
  cases lines with
  | nil => exact prefix_rfl
  | cons line lines =>
    rw [joined_cons]
    show (scan .outside [] buf).1 <+: (scan .outside [] (buf ++ _)).1
    rw [scan_append]
    exact prefix_append _ _

theorem stmts_joined (buf line : List Char) (lines : List (List Char)) :
    (splitStatements (joined (buf :: line :: lines))).stmts =
      (splitStatements (joined (accumulate buf line :: lines))).stmts := by
  rw [accumulate]
  split
  · next hnil => rw [hnil, joined_cons, List.nil_append, stmts_space]
  · cases lines with
    | nil => rfl
    | cons l lines => rw [joined_cons, joined_cons, joined_cons, List.append_assoc]; rfl

/-- At least the statements of the text are executed, and exactly they if the lines are tidy. -/
theorem runLines_eq_iff {buf : List Char} (lines : List (List Char)) (hne : lines ≠ [])
    (hlast : ExitsLast exits (splitStatements (joined (buf :: lines))).stmts) :
    (splitStatements (joined (buf :: lines))).stmts.length ≤ (runLines exits buf lines).length ∧
      (runLines exits buf lines = (splitStatements (joined (buf :: lines))).stmts ↔
        tidy exits buf lines = true) := by
  induction lines generalizing buf with
  | nil => exact absurd rfl hne
  | cons line lines ih =>
    rw [stmts_joined] at hlast ⊢
    rw [runLines, tidy]
    obtain ⟨rest, hrest⟩ := stmts_prefix_joined (accumulate buf line) lines
    by_cases hany : (splitStatements (accumulate buf line)).stmts.any exits = true
    · -- the session ends with this line, and so does the text
      have hnil : rest = [] := by
        by_contra hrest'
        obtain ⟨s, hs, hexit⟩ := any_eq_true.mp hany
        have hmem : s ∈ ((splitStatements (accumulate buf line)).stmts ++ rest).dropLast := by
          rw [dropLast_append_of_ne_nil hrest']
          exact mem_append_left _ hs
        rw [hlast s (hrest ▸ hmem)] at hexit
        cases hexit
      rw [hnil, append_nil] at hrest
      simp only [execute_of_any hany (hrest ▸ hlast), if_true, hany, Bool.true_or, ← hrest]
      exact ⟨le_rfl, trivial⟩
    · have hnone : ∀ s ∈ (splitStatements (accumulate buf line)).stmts, exits s = false := by
        simpa using hany
      simp only [execute_of_none hnone, Bool.false_eq_true, if_false, hany, Bool.false_or]
      cases lines with
      | nil => simp [runLines, joined]
      | cons l lines =>
        by_cases hcomplete : (splitStatements (accumulate buf line)).complete = true
        · have hsplit : (splitStatements (joined (accumulate buf line :: l :: lines))).stmts =
              (splitStatements (accumulate buf line)).stmts ++
                (splitStatements (joined ([] :: l :: lines))).stmts := by
            rw [joined_cons, joined_cons, stmts_append hcomplete, List.nil_append]
          rw [hsplit] at hlast ⊢
          obtain ⟨hle, hiff⟩ := @ih [] (cons_ne_nil _ _) hlast.of_append
          simp only [hcomplete, if_true, length_append, append_cancel_left_eq, hiff]
          simpa using hle
        · obtain ⟨hle, hiff⟩ := @ih (accumulate buf line) (cons_ne_nil _ _) hlast
          simp only [hcomplete, Bool.false_eq_true, if_false, length_append]
          refine ⟨by omega, fun h => ?_, fun h => ?_⟩
          · have hlen := congrArg length h
            rw [length_append] at hlen
            have hnil := length_eq_zero_iff.mp (by omega :
              (splitStatements (accumulate buf line)).stmts.length = 0)
            rw [hnil, nil_append] at h
            simp [hnil, hiff.mp h]
          · simp only [isEmpty_cons, Bool.false_or, Bool.and_eq_true, List.isEmpty_iff] at h
            rw [h.1, nil_append]
            exact hiff.mpr h.2

/-- **Every statement is executed once exactly when the lines are tidy and nothing follows a
statement that ends the session.** -/
theorem executed_once_iff (exits : List Char → Bool) (lines : List (List Char))
    (hmeta : ∀ line ∈ lines, isMetaCommand line = false) :
    (runREPL exits lines = (splitStatements (joined lines)).stmts ↔
      tidy exits [] lines = true ∧ ExitsLast exits (splitStatements (joined lines)).stmts) ∧
    ((∀ line ∈ lines, fitsScanner line = true) → ∀ fails, (∀ s, fails s = false) →
      (runPipe fails exits lines = (splitStatements (joined lines)).stmts ↔
        tidy exits [] lines = true ∧ ExitsLast exits (splitStatements (joined lines)).stmts)) := by
  have hrun : runLines exits [] lines = (splitStatements (joined lines)).stmts ↔
      tidy exits [] lines = true ∧ ExitsLast exits (splitStatements (joined lines)).stmts := by
    cases lines with
    | nil => simp [runLines, tidy, joined, splitStatements, scan, ExitsLast]
    | cons line lines =>
      have hjoin : (splitStatements (joined ([] :: line :: lines))).stmts =
          (splitStatements (joined (line :: lines))).stmts := by
        rw [joined_cons, nil_append, stmts_space]
      constructor
      · intro h
        have hlast := h ▸ runLines_exitsLast exits [] (line :: lines)
        exact ⟨(runLines_eq_iff _ (cons_ne_nil _ _) (hjoin ▸ hlast)).2.mp (h.trans hjoin.symm), hlast⟩
      · rintro ⟨htidy, hlast⟩
        exact ((runLines_eq_iff _ (cons_ne_nil _ _) (hjoin ▸ hlast)).2.mpr htidy).trans hjoin
  refine ⟨?_, fun hfits fails hfails => ?_⟩
  · rwa [runREPL, filter_eq_self.mpr fun line hline => by rw [hmeta line hline]; rfl]
  · have hstops : (fun s => fails s || exits s) = exits := by
      funext s
      rw [hfails, Bool.false_or]
    rwa [runPipe, takeWhile_eq_self_iff.mpr hfits, hstops]

/-- A session of three lines whose last statement ends it. -/
theorem executed_once_threeLines :
    runREPL (· = "EXIT".toList) ["PUT a".toList, "1;".toList, "GET a; EXIT;".toList] =
      ["PUT a 1".toList, "GET a".toList, "EXIT".toList] :=
  ((executed_once_iff _ _ (by decide)).1.mpr ⟨by decide +kernel, by
    unfold ExitsLast; decide +kernel⟩).trans (by decide +kernel)

/-- With the second statement open at the end of the line, the first is executed again. -/
theorem executed_twice :
    let lines := ["PUT a 1; GET".toList, "a;".toList]
    runPipe (fun _ => false) (fun _ => false) lines =
        ["PUT a 1".toList, "PUT a 1".toList, "GET a".toList] ∧
      (splitStatements (joined lines)).stmts = ["PUT a 1".toList, "GET a".toList] := by
  decide +kernel

end Cli
