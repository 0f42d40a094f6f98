import Handheld.Path
import Handheld.Proofs.Library

/-!
# Names of programs in files

The program in a file is called by the last name of the file's path up to the first dot, in capital
letters and as far as it fits. A name that is valid from the start stays what it is, with one
exception: `θ` is a letter of valid names, and its capital is not.
-/

namespace Handheld

namespace Name

/-- The upper case of `θ`, which stands in no name. -/
def capitalTheta : Char := 'Θ'

private theorem not_isNameChar_capitalTheta : isNameChar capitalTheta = false := by decide

/-- The characters of names other than `θ` are plain ones. -/
private theorem toNat_lt_of_isNameChar {c : Char} (h : isNameChar c = true) (hc : c ≠ theta) :
    c.toNat < 128 := by
  have hle : c ≤ 'Z' ∨ c ≤ '9' := by
    simp only [isNameChar, isLetter, isDigit, Bool.or_eq_true, Bool.and_eq_true, decide_eq_true_eq,
      beq_iff_eq, hc, or_false] at h
    exact h.imp And.right And.right
  rcases hle with hle | hle
  · exact Nat.lt_of_le_of_lt hle (by decide)
  · exact Nat.lt_of_le_of_lt hle (by decide)

/-- The letters and digits of names are capital, but for `θ`. -/
theorem upper_of_isNameChar {c : Char} (h : isNameChar c = true) :
    Text.upper c = if c = theta then capitalTheta else c := by
  have htable : ∀ n < 128, isNameChar (Char.ofNat n) = true →
      Text.upper (Char.ofNat n) = Char.ofNat n := by decide +kernel
  by_cases hc : c = theta
  · rw [if_pos hc, hc]
    decide +kernel
  · rw [if_neg hc]
    have hupper := htable c.toNat (toNat_lt_of_isNameChar h hc)
    rw [Char.ofNat_toNat] at hupper
    exact hupper h

/-- A valid name is short enough. -/
private theorem length_le_of_checkProgram {name : String} (h : checkProgram name = .ok ()) :
    name.toList.length ≤ maxProgramName := by
  unfold checkProgram at h
  split at h
  · cases h
  · next c cs hchars =>
    split at h
    · cases h
    · next hlength =>
      rw [hchars, List.length_cons]
      exact Nat.le_of_not_lt hlength

/-- A name with a character that stands in no name is refused. -/
theorem exists_checkProgram_error {name : String} {c : Char} (hmem : c ∈ name.toList)
    (hc : isNameChar c = false) : ∃ f, checkProgram name = .error f := by
  cases h : checkProgram name with
  | error f => exact ⟨f, rfl⟩
  | ok u =>
    have hname := (isNameChar_of_checkProgram h).2 c hmem
    rw [hc] at hname
    cases hname

end Name

namespace Path

/-- A name up to its first dot. -/
def upToDot (name : String) : String := String.ofList (name.toList.takeWhile (· != '.'))

/-- A name whose part up to the first dot is not empty is cut there. -/
theorem stem_eq_upToDot {name : String} (h : (upToDot name).toList ≠ []) :
    stem name = upToDot name := by
  unfold stem
  split
  · next cs hname =>
    rw [upToDot, hname] at h
    exact absurd rfl h
  · rfl

/-- The name that is taken from a path is short enough. -/
private theorem length_programName_le (path : String) :
    (programName path).length ≤ Name.maxProgramName := by
  rw [programName, String.length_ofList]
  exact List.length_take_le _ _

/-- A valid name keeps all its characters, but for `θ`. -/
theorem programName_eq {path : String} (h : Name.checkProgram (upToDot (base path)) = .ok ()) :
    programName path = String.ofList ((upToDot (base path)).toList.map fun c =>
      if c = Name.theta then Name.capitalTheta else c) := by
  obtain ⟨hne, hchars⟩ := Name.isNameChar_of_checkProgram h
  have hupper : (upToDot (base path)).toList.map Text.upper =
      (upToDot (base path)).toList.map fun c =>
        if c = Name.theta then Name.capitalTheta else c :=
    List.map_congr_left fun c hc => Name.upper_of_isNameChar (hchars c hc)
  rw [programName, stem_eq_upToDot hne, hupper, List.take_of_length_le]
  rw [List.length_map]
  exact Name.length_le_of_checkProgram h

/-- A valid name without `θ` is the name of the program. -/
theorem programName_eq_self {path : String}
    (h : Name.checkProgram (upToDot (base path)) = .ok ())
    (hθ : Name.theta ∉ (upToDot (base path)).toList) : programName path = upToDot (base path) := by
  have hkeep (c : Char) (hc : c ∈ (upToDot (base path)).toList) :
      (if c = Name.theta then Name.capitalTheta else c) = c := by
    refine if_neg ?_
    rintro rfl
    exact hθ hc
  rw [programName_eq h, List.map_congr_left hkeep, List.map_id', String.ofList_toList]

/-- A valid name with `θ` becomes one that is refused. -/
theorem exists_programName_error {path : String}
    (h : Name.checkProgram (upToDot (base path)) = .ok ())
    (hθ : Name.theta ∈ (upToDot (base path)).toList) :
    ∃ f, Name.checkProgram (programName path) = .error f := by
  refine Name.exists_checkProgram_error ?_ Name.not_isNameChar_capitalTheta
  rw [programName_eq h, String.toList_ofList]
  exact List.mem_map.mpr ⟨Name.theta, hθ, if_pos rfl⟩

end Path

/-- Under a valid name a program is loaded if its source can be parsed, and it is found under that
name. -/
theorem Calculator.load_of_valid (k : Calculator) {name : String}
    (h : Name.checkProgram name = .ok ()) (source : String) :
    (k.load name source).1 = (Program.parse name source).map (fun _ => ()) ∧
      ∀ p, Program.parse name source = .ok p →
        (k.load name source).2.programs[name]? = some p := by
  rw [load, h]
  cases hparse : Program.parse name source with
  | error f => exact ⟨rfl, fun p hp => by cases hp⟩
  | ok p =>
    refine ⟨rfl, ?_⟩
    rintro _ ⟨⟩
    exact Std.TreeMap.getElem?_insert_self

namespace Path

/-- The name of the program in a file has at most eight characters. Where the last name of the path,
up to its first dot, is a valid name without `θ`, it is the name of the program: loading the file
under it fails only if the source does, and what is loaded is found under it. Where a valid name
holds `θ`, the program gets another name, which is refused whatever the file holds. -/
theorem programName_of_valid (path source : String) (k : Calculator) :
    (programName path).length ≤ Name.maxProgramName ∧
    (Name.checkProgram (upToDot (base path)) = .ok () →
      (Name.theta ∉ (upToDot (base path)).toList →
        programName path = upToDot (base path) ∧
        (k.load (programName path) source).1 =
          (Program.parse (programName path) source).map (fun _ => ()) ∧
        ∀ p, Program.parse (programName path) source = .ok p →
          (k.load (programName path) source).2.programs[programName path]? = some p) ∧
      (Name.theta ∈ (upToDot (base path)).toList →
        programName path ≠ upToDot (base path) ∧
        ∃ f, k.load (programName path) source = (.error (.programName f), k))) := by
  refine ⟨length_programName_le path, fun h => ⟨fun hθ => ?_, fun hθ => ?_⟩⟩
  · have hself := programName_eq_self h hθ
    rw [← hself] at h
    exact ⟨hself, k.load_of_valid h source⟩
  · obtain ⟨f, hf⟩ := exists_programName_error h hθ
    refine ⟨fun hself => ?_, f, ?_⟩
    · rw [hself, h] at hf
      cases hf
    · rw [Calculator.load, hf]

/-- A valid name in a folder with two dots behind it, and a valid name with `θ`. -/
theorem programName_of_valid_files :
    (Name.checkProgram (upToDot (base "/progs/QUAD2.8xp.txt")) = .ok () ∧
      programName "/progs/QUAD2.8xp.txt" = upToDot (base "/progs/QUAD2.8xp.txt")) ∧
    Name.checkProgram (upToDot (base "Aθ.txt")) = .ok () ∧
      programName "Aθ.txt" ≠ upToDot (base "Aθ.txt") := by
  have hquad : upToDot (base "/progs/QUAD2.8xp.txt") = "QUAD2" := by decide +kernel
  have htheta : upToDot (base "Aθ.txt") = "Aθ" := by decide +kernel
  let k := Calculator.new (.stream "") .trace
  have h := (programName_of_valid "/progs/QUAD2.8xp.txt" "" k).2
  have hθ := (programName_of_valid "Aθ.txt" "" k).2
  rw [hquad] at h ⊢
  rw [htheta] at hθ ⊢
  exact ⟨⟨rfl, ((h rfl).1 (by decide)).1⟩, rfl, ((hθ rfl).2 (by decide)).1⟩

/-- A valid name is not always kept. -/
theorem programName_ne_of_valid :
    ¬ ∀ path, Name.checkProgram (upToDot (base path)) = .ok () →
      programName path = upToDot (base path) := by
  intro h
  have htheta : upToDot (base "θ.txt") = "θ" := by decide +kernel
  have hname : programName "θ.txt" = "Θ" := by decide +kernel
  have heq := h "θ.txt" (by rw [htheta]; rfl)
  rw [htheta, hname] at heq
  exact absurd heq (by decide)

end Path

end Handheld
