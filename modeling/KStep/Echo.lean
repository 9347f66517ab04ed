import KStep.Fuzz
import KStep.ShellWords

/-!
# Commands as a shell would show them

Every external command of a checkout or a build is echoed, and named in its log, as a line one can
paste: words with white space or characters that a shell treats specially are put in single quotes.
The shell reads the line back as the command, unless a word left bare starts with `#` or `~`.
-/

namespace KStep.Echo

open ShellWords

/-- The characters that make `quote` use quotes, besides white space. -/
def quotedChars : List Char :=
  ['"', '\'', '$', Char.ofNat 96, '\\', '|', '&', ';', '<', '>', '(', ')', '*', '?', '[', ']']

def needsQuotes (c : Char) : Bool := Fuzz.isWhitespace c || quotedChars.contains c

/-- What `quote` replaces a character with: a quote leaves the quotes, escaped, and enters them
again. -/
def escape (c : Char) : List Char := if c = '\'' then ['\'', '\\', '\'', '\''] else [c]

def quote (s : List Char) : List Char :=
  if s ≠ [] ∧ s.any needsQuotes = false then s else '\'' :: s.flatMap escape ++ ['\'']

def display (dir : Option (List Char)) (program : List Char) (args : List (List Char)) :
    List Char :=
  (match dir with
    | some dir => ['c', 'd', ' '] ++ quote dir ++ [' ', '&', '&', ' ']
    | none => []) ++ quote program ++ args.flatMap fun arg => ' ' :: quote arg

def commandTokens (dir : Option (List Char)) (program : List Char) (args : List (List Char)) :
    List Token :=
  (match dir with
    | some dir => [.word ['c', 'd'], .word dir, .andIf]
    | none => []) ++ (program :: args).map .word

/-- The word is left bare and starts like a comment or a home directory. -/
def Misread (w : List Char) : Prop :=
  w.any needsQuotes = false ∧ ∃ c s, w = c :: s ∧ c ∈ starters

variable {c : Char} {w : List Char}

theorem bare_of_not_needsQuotes (h : needsQuotes c = false) : Bare c := by
  have hne (d : Char) (hd : needsQuotes d = true) : c ≠ d := by
    rintro rfl
    rw [h] at hd
    cases hd
  have hblanks : blanks.all needsQuotes = true := by rfl
  have hspecials : specials.all needsQuotes = true := by rfl
  exact ⟨fun hc => hne c (List.all_eq_true.mp hblanks c hc) rfl, hne _ rfl, hne _ rfl, hne _ rfl,
    fun hc => hne c (List.all_eq_true.mp hspecials c hc) rfl⟩

/-- Between quotes every character is kept, a quote by leaving them for it. -/
theorem scan_escape (w v s : List Char) :
    scan true (some v) (w.flatMap escape ++ '\'' :: s) = scan false (some (v ++ w)) s := by
  induction w generalizing v with
  | nil =>
      rw [List.flatMap_nil, List.nil_append, List.append_nil]
      exact scan_close s
  | cons c w ih =>
      rw [List.flatMap_cons, List.append_assoc]
      by_cases hc : c = '\''
      · subst hc
        have hescape (t : List Char) : escape '\'' ++ t = '\'' :: '\\' :: '\'' :: '\'' :: t := rfl
        rw [hescape, scan_close, scan_escaped (by decide), scan_open, Option.getD_some,
          Option.getD_some, ih, List.append_assoc]
        rfl
      · rw [escape, if_neg hc, List.singleton_append, scan_quoted hc, Option.getD_some, ih,
          List.append_assoc]
        rfl

theorem scan_quote (hw : ¬ Misread w) (s : List Char) :
    scan false none (quote w ++ s) = scan false (some w) s := by
  unfold quote
  by_cases hbare : w ≠ [] ∧ w.any needsQuotes = false
  · rw [if_pos hbare]
    obtain ⟨hne, hall⟩ := hbare
    obtain ⟨c, w, rfl⟩ := List.exists_cons_of_ne_nil hne
    have hbares : ∀ d ∈ c :: w, Bare d := fun d hd =>
      bare_of_not_needsQuotes (by simpa using List.any_eq_false.mp hall d hd)
    have hstart : c ∉ starters := fun h => hw ⟨hall, c, w, rfl, h⟩
    rw [List.cons_append, scan_bare (hbares c List.mem_cons_self) (fun _ => hstart),
      scan_bares fun d hd => hbares d (List.mem_cons_of_mem _ hd)]
    rfl
  · rw [if_neg hbare, List.cons_append, List.cons_append, List.append_assoc, scan_open]
    exact scan_escape w [] s

theorem scan_misread (hw : Misread w) (s : List Char) : scan false none (quote w ++ s) = none := by
  obtain ⟨hall, c, v, rfl, hstart⟩ := hw
  have hbare : Bare c :=
    bare_of_not_needsQuotes (by simpa using List.any_eq_false.mp hall c List.mem_cons_self)
  rw [quote, if_pos ⟨List.cons_ne_nil _ _, hall⟩, List.cons_append, scan_starter hbare hstart]

/-- The words of a command, each after a blank but the first. -/
def line (program : List Char) (args : List (List Char)) : List Char :=
  quote program ++ args.flatMap fun arg => ' ' :: quote arg

theorem scan_args {args : List (List Char)} (h : ∀ w ∈ args, ¬ Misread w) (w : List Char) :
    scan false (some w) (args.flatMap fun arg => ' ' :: quote arg) =
      some ((w :: args).map .word) := by
  induction args generalizing w with
  | nil => rfl
  | cons a args ih =>
      rw [List.flatMap_cons, List.cons_append, scan_blank (by decide),
        scan_quote (h a List.mem_cons_self), ih fun w hw => h w (List.mem_cons_of_mem _ hw)]
      rfl

theorem scan_args_misread {args : List (List Char)} (h : ∃ w ∈ args, Misread w) (w : List Char) :
    scan false (some w) (args.flatMap fun arg => ' ' :: quote arg) = none := by
  induction args generalizing w with
  | nil =>
      obtain ⟨a, ha, -⟩ := h
      cases ha
  | cons a args ih =>
      rw [List.flatMap_cons, List.cons_append, scan_blank (by decide)]
      by_cases ha : Misread a
      · rw [scan_misread ha]
        rfl
      · rw [scan_quote ha, ih]
        · rfl
        · obtain ⟨b, hb, hmisread⟩ := h
          rcases List.mem_cons.mp hb with rfl | hb
          · exact absurd hmisread ha
          · exact ⟨b, hb, hmisread⟩

theorem scan_line {program : List Char} {args : List (List Char)}
    (h : ∀ w ∈ program :: args, ¬ Misread w) :
    scan false none (line program args) = some ((program :: args).map .word) := by
  rw [line, scan_quote (h program List.mem_cons_self)]
  exact scan_args (fun w hw => h w (List.mem_cons_of_mem _ hw)) program

theorem scan_line_misread {program : List Char} {args : List (List Char)}
    (h : ∃ w ∈ program :: args, Misread w) : scan false none (line program args) = none := by
  rw [line]
  by_cases hprogram : Misread program
  · exact scan_misread hprogram _
  · rw [scan_quote hprogram]
    apply scan_args_misread
    obtain ⟨w, hw, hmisread⟩ := h
    rcases List.mem_cons.mp hw with rfl | hw
    · exact absurd hmisread hprogram
    · exact ⟨w, hw, hmisread⟩

theorem scan_cd_word (s : List Char) :
    scan false none ('c' :: 'd' :: ' ' :: s) =
      (scan false none s).map ([.word ['c', 'd']] ++ ·) := rfl

/-- The directory, when the shell reads it, is gone to first. -/
theorem scan_cd (dir s : List Char) (h : ¬ Misread dir) :
    scan false none (['c', 'd', ' '] ++ quote dir ++ [' ', '&', '&', ' '] ++ s) =
      (scan false none s).map ([.word ['c', 'd'], .word dir, .andIf] ++ ·) := by
  have hand (s : List Char) : scan false (some dir) (' ' :: '&' :: '&' :: ' ' :: s) =
      (((scan false none s).map ([] ++ ·)).map ([] ++ Token.andIf :: ·)).map
        ([.word dir] ++ ·) := rfl
  simp only [List.append_assoc, List.cons_append, List.nil_append]
  rw [scan_cd_word, scan_quote h, hand]
  simp only [Option.map_map]
  rfl

theorem scan_cd_misread (dir s : List Char) (h : Misread dir) :
    scan false none (['c', 'd', ' '] ++ quote dir ++ [' ', '&', '&', ' '] ++ s) = none := by
  simp only [List.append_assoc, List.cons_append, List.nil_append]
  rw [scan_cd_word, scan_misread h]
  rfl

/-- The shell reads what is shown as the command, whatever is in its words, if and only if no bare
word of it starts like a comment or a home directory. -/
theorem display_read_iff (dir : Option (List Char)) (program : List Char)
    (args : List (List Char)) :
    tokens (display dir program args) = some (commandTokens dir program args) ↔
      ∀ w ∈ dir.toList ++ program :: args, ¬ Misread w := by
  cases dir with
  | none =>
      change scan false none (line program args) = some ((program :: args).map .word) ↔
        ∀ w ∈ program :: args, ¬ Misread w
      by_cases h : ∀ w ∈ program :: args, ¬ Misread w
      · exact iff_of_true (scan_line h) h
      · rw [scan_line_misread (by simpa only [not_forall, not_not, exists_prop] using h)]
        exact iff_of_false (fun h => by cases h) h
  | some dir =>
      have hshown : display (some dir) program args =
          ['c', 'd', ' '] ++ quote dir ++ [' ', '&', '&', ' '] ++ line program args :=
        List.append_assoc _ _ _
      rw [tokens, hshown, Option.toList_some, List.singleton_append, List.forall_mem_cons]
      by_cases hdir : Misread dir
      · rw [scan_cd_misread dir _ hdir]
        exact iff_of_false (fun h => by cases h) fun h => h.1 hdir
      rw [scan_cd dir _ hdir]
      by_cases h : ∀ w ∈ program :: args, ¬ Misread w
      · rw [scan_line h]
        exact iff_of_true rfl ⟨hdir, h⟩
      · rw [scan_line_misread (by simpa only [not_forall, not_not, exists_prop] using h)]
        exact iff_of_false (fun h => by cases h) fun hall => h hall.2

example : display (some "/a b".toList) "git".toList ["-m".toList, "it's".toList] =
    "cd '/a b' && git -m 'it'\\''s'".toList := by decide

end KStep.Echo
