import Mathlib.Data.List.TakeWhile

/-!
# The words of a shell command

How a POSIX shell splits a line into words and `&&`, as far as quoting goes: single quotes and
backslashes. A line that asks for anything more than words is given up.
-/

namespace ShellWords

inductive Token
  | word (w : List Char)
  | andIf
  deriving DecidableEq, Repr

def blanks : List Char := [' ', '\t']

/-- What ends the command or starts another operator, a double quote, an expansion or a pattern. -/
def specials : List Char :=
  ['\n', '"', '$', Char.ofNat 96, '|', ';', '<', '>', '(', ')', '*', '?', '[']

/-- What makes a comment or a home directory of a word that starts with it. -/
def starters : List Char := ['#', '~']

def flush : Option (List Char) → List Token
  | none => []
  | some w => [.word w]

/-- `cur` is the word read so far, and `quoted` holds between single quotes. -/
def scan : Bool → Option (List Char) → List Char → Option (List Token)
  | false, cur, [] => some (flush cur)
  | true, _, [] => none
  | true, cur, c :: s =>
      if c = '\'' then scan false cur s else scan true (some (cur.getD [] ++ [c])) s
  | false, cur, '\\' :: c :: s =>
      if c = '\n' then none else scan false (some (cur.getD [] ++ [c])) s
  | false, cur, '&' :: '&' :: s => (scan false none s).map (flush cur ++ .andIf :: ·)
  | false, cur, c :: s =>
      if c ∈ blanks then (scan false none s).map (flush cur ++ ·)
      else if c = '\'' then scan true (some (cur.getD [])) s
      else if c = '\\' ∨ c = '&' ∨ c ∈ specials ∨ cur = none ∧ c ∈ starters then none
      else scan false (some (cur.getD [] ++ [c])) s

/-- How the shell reads a line. -/
def tokens (line : List Char) : Option (List Token) := scan false none line

def Bare (c : Char) : Prop :=
  c ∉ blanks ∧ c ≠ '\'' ∧ c ≠ '\\' ∧ c ≠ '&' ∧ c ∉ specials

variable {cur : Option (List Char)} {c : Char} {w s : List Char}

theorem scan_bare (hc : Bare c) (hstart : cur = none → c ∉ starters) (s : List Char) :
    scan false cur (c :: s) = scan false (some (cur.getD [] ++ [c])) s := by
  obtain ⟨hblank, hquote, hslash, hand, hspecial⟩ := hc
  rw [scan, if_neg hblank, if_neg hquote, if_neg]
  · rintro (h | h | h | ⟨hnone, h⟩)
    · exact hslash h
    · exact hand h
    · exact hspecial h
    · exact hstart hnone h
  · rintro c s rfl
    exact absurd rfl hslash
  · rintro s rfl
    exact absurd rfl hand

theorem scan_starter (hc : Bare c) (hstart : c ∈ starters) (s : List Char) :
    scan false none (c :: s) = none := by
  obtain ⟨hblank, hquote, hslash, hand, hspecial⟩ := hc
  rw [scan, if_neg hblank, if_neg hquote, if_pos (by simp [hstart])]
  · rintro c s rfl
    exact absurd rfl hslash
  · rintro s rfl
    exact absurd rfl hand

/-- Characters that stand for themselves go on the word. -/
theorem scan_bares (hw : ∀ c ∈ w, Bare c) (v s : List Char) :
    scan false (some v) (w ++ s) = scan false (some (v ++ w)) s := by
  induction w generalizing v with
  | nil => rw [List.nil_append, List.append_nil]
  | cons c w ih =>
      rw [List.cons_append, scan_bare (hw c List.mem_cons_self) (fun h => by cases h),
        Option.getD_some, ih fun c hc => hw c (List.mem_cons_of_mem _ hc), List.append_assoc]
      rfl

theorem scan_blank (h : c ∈ blanks) (s : List Char) :
    scan false cur (c :: s) = (scan false none s).map (flush cur ++ ·) := by
  simp only [blanks, List.mem_cons, List.not_mem_nil, or_false] at h
  rcases h with rfl | rfl <;> rfl

theorem scan_open (s : List Char) :
    scan false cur ('\'' :: s) = scan true (some (cur.getD [])) s := rfl

theorem scan_close (s : List Char) : scan true cur ('\'' :: s) = scan false cur s := rfl

theorem scan_escaped (h : c ≠ '\n') (s : List Char) :
    scan false cur ('\\' :: c :: s) = scan false (some (cur.getD [] ++ [c])) s := by
  rw [scan, if_neg h]

theorem scan_quoted (h : c ≠ '\'') (s : List Char) :
    scan true cur (c :: s) = scan true (some (cur.getD [] ++ [c])) s := by
  rw [scan, if_neg h]

end ShellWords
