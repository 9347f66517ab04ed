import KStep.FuzzPanics

/-!
# Mutations stay local

A record changes what later records are resolved against only if it creates a task, kills one or
creates a cgroup. For a bug that asks for none of these verbs the line of a record depends on that
record alone, so two inputs that differ inside one record decode to programs that differ at most in
its line. A machine with one CPU has no test CPU for some lines to name, and decoding panics there.
-/

namespace KStep.Fuzz

open Checked

def changingVerbs : List Line := ["create".toList, "kill".toList, "cgroup-create".toList]

def Bug.Steady (bug : Bug) : Prop := ∀ verb ∈ changingVerbs, verb ∉ bug.verbs

structure DifferInRecord (k : ℕ) (bytes bytes' : List UInt8) : Prop where
  length : bytes.length = bytes'.length
  same : ∀ i, i / 4 ≠ k → bytes[i]? = bytes'[i]?

def recordAt (bytes : List UInt8) (j : ℕ) : Option Record := do
  return ⟨← bytes[4 * j]?, ← bytes[4 * j + 1]?, ← bytes[4 * j + 2]?, ← bytes[4 * j + 3]?⟩

variable {bug : Bug} {d : Decoder} {r : Record} {bytes bytes' : List UInt8} {j k : ℕ}

theorem recordAt_short (h : bytes.length < 4 * j + 4) : recordAt bytes j = none := by
  have hlast : bytes[4 * j + 3]? = none := List.getElem?_eq_none (by omega)
  simp [recordAt, hlast]

theorem recordAt_cons (v a b c : UInt8) (rest : List UInt8) (j : ℕ) :
    recordAt (v :: a :: b :: c :: rest) (j + 1) = recordAt rest j := rfl

theorem chunks_cases (bytes : List UInt8) :
    bytes.length < 4 ∧ chunks bytes = [] ∨ ∃ v a b c rest, bytes = v :: a :: b :: c :: rest := by
  rcases bytes with _ | ⟨v, _ | ⟨a, _ | ⟨b, _ | ⟨c, rest⟩⟩⟩⟩
  · exact Or.inl ⟨by decide, rfl⟩
  · exact Or.inl ⟨by simp, rfl⟩
  · exact Or.inl ⟨by simp, rfl⟩
  · exact Or.inl ⟨by simp, rfl⟩
  · exact Or.inr ⟨v, a, b, c, rest, rfl⟩

theorem chunks_getElem? (bytes : List UInt8) (j : ℕ) : (chunks bytes)[j]? = recordAt bytes j := by
  induction bytes using chunks.induct generalizing j with
  | case1 v a b c rest ih =>
      rw [chunks]
      cases j with
      | zero => rfl
      | succ j => rw [List.getElem?_cons_succ, ih, recordAt_cons]
  | case2 bytes hshort =>
      rcases chunks_cases bytes with ⟨hlen, hnone⟩ | ⟨v, a, b, c, rest, rfl⟩
      · rw [hnone, recordAt_short (by omega), List.getElem?_nil]
      · exact absurd rfl (hshort v a b c rest)

theorem chunks_length (bytes : List UInt8) : (chunks bytes).length = bytes.length / 4 := by
  induction bytes using chunks.induct with
  | case1 v a b c rest ih =>
      rw [chunks, List.length_cons, ih]
      simp only [List.length_cons]
      omega
  | case2 bytes hshort =>
      rcases chunks_cases bytes with ⟨hlen, hnone⟩ | ⟨v, a, b, c, rest, rfl⟩
      · rw [hnone, List.length_nil, Nat.div_eq_of_lt hlen]
      · exact absurd rfl (hshort v a b c rest)

/-- Bytes of an incomplete record at the end make no record. -/
theorem chunks_append_short {tail : List UInt8} (hbytes : 4 ∣ bytes.length)
    (htail : tail.length < 4) : chunks (bytes ++ tail) = chunks bytes := by
  refine List.ext_getElem? fun j => ?_
  rw [chunks_getElem?, chunks_getElem?]
  obtain ⟨n, hn⟩ := hbytes
  by_cases hj : j < n
  · have hleft (i : ℕ) (hi : i < 4 * j + 4) : (bytes ++ tail)[i]? = bytes[i]? :=
      List.getElem?_append_left (by omega)
    simp only [recordAt, hleft _ (show 4 * j < 4 * j + 4 by omega),
      hleft _ (show 4 * j + 1 < 4 * j + 4 by omega), hleft _ (show 4 * j + 2 < 4 * j + 4 by omega),
      hleft _ (show 4 * j + 3 < 4 * j + 4 by omega)]
  · rw [recordAt_short (by rw [List.length_append]; omega), recordAt_short (by omega)]

theorem DifferInRecord.recordAt (h : DifferInRecord k bytes bytes') (hj : j ≠ k) :
    recordAt bytes j = recordAt bytes' j := by
  simp only [Fuzz.recordAt, h.same (4 * j) (by omega), h.same (4 * j + 1) (by omega),
    h.same (4 * j + 2) (by omega), h.same (4 * j + 3) (by omega)]

theorem after_steady {c : Command}
    (h : c.arm ∉ [Arm.create, Arm.kill, Arm.cgroupCreate]) : d.after c = d := by
  cases c with
  | create => simp [Command.arm] at h
  | kill t => simp [Command.arm] at h
  | cgroupCreate parent n => simp [Command.arm] at h
  | _ => rfl

/-- A record whose verb changes nothing leaves the host with what it knew. -/
theorem record_steady (hbug : bug.Steady) (d : Decoder) (r : Record) : (bug.record d r).1 = d := by
  have hverb : bug.verbAt r ∉ changingVerbs := by
    intro hmem
    have hgeneral : ∀ verb ∈ changingVerbs, verb ∉ generalVerbs := by decide
    rcases List.mem_append.mp (verbAt_mem bug r) with h | h
    · exact hgeneral _ hmem h
    · exact hbug _ hmem h
  have harm : armOf (bug.verbAt r) ∉ [Arm.create, Arm.kill, Arm.cgroupCreate] := by
    intro harm
    have hother : armOf (bug.verbAt r) ≠ .other := by
      intro hother
      simp [hother] at harm
    have hchanging : ∀ e ∈ arms, e.2 ∈ [Arm.create, Arm.kill, Arm.cgroupCreate] →
        e.1 ∈ changingVerbs := by decide
    exact hverb (hchanging _ (mem_arms hother) harm)
  rw [record_eq]
  rcases command_arm bug d r with h | h
  · exact after_steady (h ▸ harm)
  · rw [h]
    rfl

theorem recordProgram_steady (hbug : bug.Steady) (d : Decoder) (rs : List Record) :
    (recordProgram bug d rs).map Prod.fst = rs.map fun r => (bug.record d r).2 := by
  induction rs with
  | nil => rfl
  | cons r rs ih => rw [recordProgram, List.map_cons, record_steady hbug, ih, List.map_cons]

theorem recordProgram_length (bug : Bug) (d : Decoder) (rs : List Record) :
    (recordProgram bug d rs).length = rs.length := by
  induction rs generalizing d with
  | nil => rfl
  | cons r rs ih => rw [recordProgram, List.length_cons, ih, List.length_cons]

theorem lines_length (bytes : List UInt8) (bug : Bug) : (lines bytes bug).length =
    bug.checks.length + bug.setup.length + min (bytes.length / 4) maxRecords + 3 := by
  rw [lines_eq]
  simp only [List.length_append, List.length_map, List.length_replicate, recordProgram_length,
    List.length_take, chunks_length]
  omega

/-- The line at a place after the setup. -/
theorem lines_steady_getElem? (hbug : bug.Steady) (bytes : List UInt8) (j : ℕ) :
    (lines bytes bug)[bug.checks.length + bug.setup.length + j]? =
      if j < min (bytes.length / 4) maxRecords then
        (recordAt bytes j).map fun r =>
          (bug.record (bug.setup.foldl Decoder.setup Decoder.start) r).2
      else (List.replicate 3 Command.tick.line)[j - min (bytes.length / 4) maxRecords]? := by
  have hhead : (bug.checks.map (fun c => say "check".toList [c]) ++ bug.setup).length =
      bug.checks.length + bug.setup.length := by
    rw [List.length_append, List.length_map]
  have hrecords : (((chunks bytes).take maxRecords).map fun r =>
      (bug.record (bug.setup.foldl Decoder.setup Decoder.start) r).2).length =
        min (bytes.length / 4) maxRecords := by
    rw [List.length_map, List.length_take, chunks_length, Nat.min_comm]
  rw [lines_eq, recordProgram_steady hbug, ← hhead,
    List.getElem?_append_right (Nat.le_add_right _ _), Nat.add_sub_cancel_left]
  split_ifs with hj
  · rw [List.getElem?_append_left (hrecords ▸ hj), List.getElem?_map,
      List.getElem?_take_of_lt (by omega), chunks_getElem?]
  · rw [List.getElem?_append_right (by omega), hrecords]

theorem lines_head_getElem? (bytes bytes' : List UInt8) (bug : Bug) {i : ℕ}
    (hi : i < bug.checks.length + bug.setup.length) :
    (lines bytes bug)[i]? = (lines bytes' bug)[i]? := by
  have hhead : i < (bug.checks.map (fun c => say "check".toList [c]) ++ bug.setup).length := by
    rw [List.length_append, List.length_map]
    exact hi
  rw [lines_eq, lines_eq, List.getElem?_append_left hhead, List.getElem?_append_left hhead]

/-- What a record says in a program of a bug whose verbs change nothing the host knows. -/
def Bug.recordLine (bug : Bug) (r : Record) : Line :=
  (bug.record (bug.setup.foldl Decoder.setup Decoder.start) r).2

/-- The lines of a program: those of the checks, of the setup and of the complete records, up to
`maxRecords` of them, and three ticks. -/
def Bug.layout (bug : Bug) (bytes : List UInt8) : List Line :=
  bug.checks.map (fun c => say "check".toList [c]) ++ bug.setup ++
    ((chunks bytes).take maxRecords).map bug.recordLine ++ List.replicate 3 "tick".toList

theorem lines_steady (hbug : bug.Steady) (bytes : List UInt8) :
    lines bytes bug = bug.layout bytes := by
  rw [lines_eq, recordProgram_steady hbug, ← List.append_assoc]
  rfl

theorem lines_of_decodeChecked {prog : Program} (h : decodeChecked bytes bug = .ok prog) :
    prog.map Prod.fst = lines bytes bug := by
  rw [decodeChecked_mayReturn bytes bug prog h]
  rfl

/-- For a bug whose verbs change nothing the host knows, a change inside one record changes at most
its line, if decoding returns on both inputs. A program has a line for each check, setup line and
record and three more, in this order, and an incomplete record at the end does not matter. Decoding
returns for two to 32 CPUs, unless memory runs out. -/
theorem decode_local (bug : Bug) (hbug : bug.Steady) :
    (∀ (k : ℕ) (bytes bytes' : List UInt8) (prog prog' : Program), k < maxRecords →
        DifferInRecord k bytes bytes' → decodeChecked bytes bug = .ok prog →
        decodeChecked bytes' bug = .ok prog' → prog.length = prog'.length ∧
          ∀ i, i ≠ bug.checks.length + bug.setup.length + k →
            (prog.map Prod.fst)[i]? = (prog'.map Prod.fst)[i]?) ∧
      (∀ bytes prog, decodeChecked bytes bug = .ok prog →
        prog.map Prod.fst = bug.layout bytes ∧ (chunks bytes).length = bytes.length / 4 ∧
          ∀ j, (chunks bytes)[j]? = recordAt bytes j) ∧
      (∀ bytes tail : List UInt8, 4 ∣ bytes.length → tail.length < 4 →
        decodeChecked (bytes ++ tail) bug = decodeChecked bytes bug) ∧
      (bug.Sized → ∀ bytes, ((∃ prog, decodeChecked bytes bug = .ok prog) ∨
          decodeChecked bytes bug = .error .outOfMemory) ∧
        (bug.InMemory bytes → ∃ prog, decodeChecked bytes bug = .ok prog)) := by
  refine ⟨fun k bytes bytes' prog prog' _ hdiffer hprog hprog' => ?_, fun bytes prog hprog => ?_,
    fun bytes tail hbytes htail => ?_, fun hsized bytes => ?_⟩
  · have hlen (prog : Program) : prog.length = (prog.map Prod.fst).length := by
      rw [List.length_map]
    rw [hlen prog, hlen prog', lines_of_decodeChecked hprog, lines_of_decodeChecked hprog']
    refine ⟨by rw [lines_length, lines_length, hdiffer.length], fun i hi => ?_⟩
    by_cases hhead : i < bug.checks.length + bug.setup.length
    · exact lines_head_getElem? bytes bytes' bug hhead
    · obtain ⟨j, rfl⟩ := Nat.exists_eq_add_of_le (Nat.le_of_not_lt hhead)
      rw [lines_steady_getElem? hbug, lines_steady_getElem? hbug, hdiffer.length,
        hdiffer.recordAt (by omega)]
  · rw [lines_of_decodeChecked hprog, lines_steady hbug]
    exact ⟨rfl, chunks_length bytes, chunks_getElem? bytes⟩
  · simp only [decodeChecked, chunks_append_short hbytes htail]
  · exact ⟨(decodeChecked_returns bytes hsized).imp_left fun h => ⟨_, h⟩,
      fun hmemory => ⟨_, decodeChecked_inMemory hsized hmemory⟩⟩

/-- A bug with two tasks; the second record of three is changed. -/
theorem decode_local_second_record :
    ∃ prog prog',
      decodeChecked [3, 0, 0, 0, 3, 0, 0, 0, 4, 1, 0, 0] (plainBug ["create 2"] ["yield"]) =
        .ok prog ∧
      decodeChecked [3, 0, 0, 0, 5, 1, 9, 9, 4, 1, 0, 0] (plainBug ["create 2"] ["yield"]) =
        .ok prog' ∧ prog.length = prog'.length ∧
      ∀ i, i ≠ 2 → (prog.map Prod.fst)[i]? = (prog'.map Prod.fst)[i]? := by
  have hsteady : (plainBug ["create 2"] ["yield"]).Steady := by unfold Bug.Steady; decide
  have hdiffer : DifferInRecord 1 [3, 0, 0, 0, 3, 0, 0, 0, 4, 1, 0, 0]
      [3, 0, 0, 0, 5, 1, 9, 9, 4, 1, 0, 0] := by
    have hbytes : ∀ i < 12, i / 4 ≠ 1 → ([3, 0, 0, 0, 3, 0, 0, 0, 4, 1, 0, 0] : List UInt8)[i]? =
        [3, 0, 0, 0, 5, 1, 9, 9, 4, 1, 0, 0][i]? := by decide
    refine ⟨rfl, fun i hi => ?_⟩
    rcases Nat.lt_or_ge i 12 with hlt | hge
    · exact hbytes i hlt hi
    · rw [List.getElem?_eq_none (by simpa using hge), List.getElem?_eq_none (by simpa using hge)]
  exact ⟨_, _, rfl, rfl, (decode_local (plainBug ["create 2"] ["yield"]) hsteady).1 1 _ _ _ _
    (by decide) hdiffer rfl rfl⟩

/-- One CPU: a tick, and an affinity in its place. -/
theorem one_cpu_panics : ¬ ∀ bug : Bug, bug.Steady → ∀ (k : ℕ) (bytes bytes' : List UInt8),
    k < maxRecords → DifferInRecord k bytes bytes' → ∃ prog prog',
      decodeChecked bytes bug = .ok prog ∧ decodeChecked bytes' bug = .ok prog' ∧
        prog.length = prog'.length := by
  intro h
  have hdiffer : DifferInRecord 0 [0, 0, 0, 0] [2, 0, 0, 0] := by
    refine ⟨rfl, fun i hi => ?_⟩
    have hge : 4 ≤ i := by omega
    rw [List.getElem?_eq_none (by simpa using hge), List.getElem?_eq_none (by simpa using hge)]
  obtain ⟨-, prog', -, hprog', -⟩ := h ⟨1, [], [], ["create".toList]⟩
    (fun verb _ => List.not_mem_nil) 0 [0, 0, 0, 0] [2, 0, 0, 0] (by decide) hdiffer
  have hpanics : decodeChecked [2, 0, 0, 0] ⟨1, [], [], ["create".toList]⟩ =
      .error .divideByZero := rfl
  cases hpanics.symm.trans hprog'

end KStep.Fuzz
