import Handheld.Proofs.Writes
import Mathlib.Data.List.Induction

/-!
# Assignments to a memory

A memory is filled by assignments, each to a numeric variable, to a list or to the last result. An
assignment comes to one write or it is refused, and that depends on its name and its value only,
never on what the memory holds. So after any assignments each place of the memory holds what the
last accepted assignment to it stored, or what it held at the start. The names of the lists are
those that an accepted assignment had, in the order of their code points, which is also the order of
their bytes.
-/

namespace Handheld

namespace Memory

/-- A number is stored under a letter. -/
theorem setNumber_eq_ok_iff {m m' : Memory} (hm : m.locked = none) {c : Char} {v : Option Value} :
    m.setNumber c v = .ok m' ↔
      ∃ z, Name.isLetter c = true ∧ v = some (.number z) ∧ m' = m.write (.number c z) := by
  constructor
  · intro h
    simp only [setNumber, hm] at h
    split at h
    · next hc =>
      split at h
      · next z =>
        cases h
        exact ⟨z, hc, rfl, by simp only [write, hm]⟩
      · cases h
    · cases h
  · rintro ⟨z, hc, rfl, rfl⟩
    simp only [setNumber, hm, hc, if_true, write]

/-- A list that is not too long is stored under a valid name. -/
theorem setList_eq_ok_iff {m m' : Memory} {n : String} {v : Option Value} :
    m.setList n v = .ok m' ↔
      ∃ zs, Name.checkList n = .ok () ∧ v = some (.list zs) ∧ zs.length ≤ Value.maxListLength ∧
        m' = m.write (.list n zs) := by
  constructor
  · intro h
    unfold setList at h
    split at h
    · cases h
    · next hn =>
      split at h
      · next zs =>
        split at h
        · cases h
        · next hlength =>
          cases h
          exact ⟨zs, hn, rfl, Nat.not_lt.mp hlength, rfl⟩
      · cases h
  · rintro ⟨zs, hn, rfl, hlength, rfl⟩
    simp only [setList, hn, Nat.not_lt.mpr hlength, if_false, write]

/-- No write locks the memory. -/
theorem locked_write (m : Memory) (y : Write) : (m.write y).locked = m.locked := by
  cases y <;> rfl

/-- The value in a variable, or the last result where no variable is named. -/
def slot (m : Memory) : Option Target → Option Value
  | some (.var c) => some (.number (m.number c))
  | some (.list n) => (m.list n).toOption.map .list
  | none => m.ans

private theorem list_eq_ok_iff {m : Memory} {n : String} {zs : List Number} :
    m.list n = .ok zs ↔ m.lists[n]? = some zs := by
  unfold list
  split
  · next h => simp [h]
  · next h => simp [h]

/-- The lists that are named are those that are defined. -/
theorem mem_listNames_iff {m : Memory} {n : String} :
    n ∈ m.listNames ↔ ∃ zs, m.list n = .ok zs := by
  rw [listNames, Std.TreeMap.mem_keys, Std.TreeMap.mem_iff_isSome_getElem?,
    Option.isSome_iff_exists]
  simp only [list_eq_ok_iff]

/-- A list is held exactly if it can be read. -/
theorem slot_list_eq_some_iff {m : Memory} {n : String} {zs : List Number} :
    m.slot (some (.list n)) = some (.list zs) ↔ m.list n = .ok zs := by
  cases hn : m.list n <;> simp [slot, hn, Except.toOption]

/-- No list is held exactly if reading it fails. -/
theorem slot_list_eq_none_iff {m : Memory} {n : String} :
    m.slot (some (.list n)) = none ↔ m.list n = .error (.undefinedList n) := by
  cases hn : m.lists[n]? <;> simp [slot, list, hn, Except.toOption]

/-- A write changes one place. -/
theorem slot_write (m : Memory) (y : Write) (t : Option Target) :
    (m.write y).slot t = if y.target = t then y.value else m.slot t := by
  cases y with
  | ans v =>
    cases t with
    | none => rfl
    | some t => cases t <;> rfl
  | number c z =>
    cases t with
    | none => rfl
    | some t =>
      cases t with
      | list n => rfl
      | var c' => by_cases hc : c = c' <;> simp [slot, write, number, Write.target, Write.value,
          Std.TreeMap.getElem?_insert, hc]
  | list n zs =>
    cases t with
    | none => rfl
    | some t =>
      cases t with
      | var c => rfl
      | list n' =>
        by_cases hn : n = n' <;> simp [slot, write, list, Write.target, Write.value,
          Std.TreeMap.getElem?_insert, hn, Except.toOption]

end Memory

namespace Write

private theorem eq_number_of_target {y : Write} {c : Char} (h : y.target = some (.var c)) :
    ∃ z, y = .number c z := by
  cases y with
  | number c' z =>
    cases h
    exact ⟨z, rfl⟩
  | list | ans => cases h

private theorem eq_list_of_target {y : Write} {n : String} (h : y.target = some (.list n)) :
    ∃ zs, y = .list n zs := by
  cases y with
  | list n' zs =>
    cases h
    exact ⟨zs, rfl⟩
  | number | ans => cases h

end Write

namespace Action

variable {v : Option Value} {t : Target} {w w' : World}

/-- A store succeeds exactly if the memory accepts it, and changes the memory alone. -/
private theorem store_eq_ok_iff :
    store v t w = .ok () w' ↔ ∃ m, w.memory.store v t = .ok m ∧ w' = { w with memory := m } := by
  unfold store
  cases w.memory.store v t with
  | error f => simp
  | ok m => simp [eq_comm]

/-- A store that fails changes nothing. -/
theorem eq_of_store_error {f : Fault} (h : store v t w = .error f w') : w' = w := by
  unfold store at h
  split at h
  · cases h
  · cases h
    rfl

end Action

/-- The world at the end, whether there was a fault or not. -/
def Outcome.world {α : Type} : Outcome α → World
  | .ok _ w => w
  | .error _ w => w

/-- A call of one of the setters of a memory. -/
inductive Assignment
  /-- To a numeric variable. -/
  | number (name : Char) (v : Value)
  /-- To a list. -/
  | list (name : String) (v : Value)
  /-- To the last result. -/
  | ans (v : Value)

namespace Assignment

/-- Assigns the value, unless the memory refuses it. -/
def run : Assignment → Action Unit
  | number c v => Action.store (some v) (.var c)
  | list n v => Action.store (some v) (.list n)
  | ans v => Action.setAns (some v)

/-- The variable that is assigned to; the last result is not one. -/
def target : Assignment → Option Target
  | number c _ => some (.var c)
  | list n _ => some (.list n)
  | ans _ => none

/-- The assignment has a valid name and a value of the right kind, and comes to this write. -/
inductive Stores : Assignment → Write → Prop
  | number {c : Char} {z : Number} (hc : Name.isLetter c = true) :
      Stores (.number c (.number z)) (.number c z)
  | list {n : String} {zs : List Number} (hn : Name.checkList n = .ok ())
      (hzs : zs.length ≤ Value.maxListLength) : Stores (.list n (.list zs)) (.list n zs)
  | ans (v : Value) : Stores (.ans v) (.ans (some v))

/-- One of the assignments comes to this write. -/
def EverStored (xs : List Assignment) (y : Write) : Prop := ∃ x ∈ xs, x.Stores y

/-- One of the assignments comes to this write, and none after it writes to the same place. -/
def LastStored (xs : List Assignment) (y : Write) : Prop :=
  ∃ before x after, xs = before ++ x :: after ∧ x.Stores y ∧
    ∀ y', EverStored after y' → y'.target ≠ y.target

variable {x : Assignment} {xs : List Assignment} {y : Write} {w w' : World}

/-- An assignment writes to its target. -/
theorem Stores.target_eq (h : x.Stores y) : y.target = x.target := by
  cases h <;> rfl

/-- An assignment succeeds if its name is valid and its value fits, whatever the memory holds. -/
theorem run_eq_ok_iff (hw : w.memory.locked = none) :
    x.run w = .ok () w' ↔ ∃ y, x.Stores y ∧ w' = { w with memory := w.memory.write y } := by
  cases x with
  | ans v =>
    constructor
    · intro h
      cases h
      exact ⟨_, .ans v, rfl⟩
    · rintro ⟨y, hy, rfl⟩
      cases hy
      rfl
  | number c v =>
    constructor
    · intro h
      obtain ⟨m, hm, rfl⟩ := Action.store_eq_ok_iff.mp h
      obtain ⟨z, hc, hv, rfl⟩ := (Memory.setNumber_eq_ok_iff hw).mp hm
      cases hv
      exact ⟨_, .number hc, rfl⟩
    · rintro ⟨y, hy, rfl⟩
      cases hy with
      | number hc =>
        exact Action.store_eq_ok_iff.mpr
          ⟨_, (Memory.setNumber_eq_ok_iff hw).mpr ⟨_, hc, rfl, rfl⟩, rfl⟩
  | list n v =>
    constructor
    · intro h
      obtain ⟨m, hm, rfl⟩ := Action.store_eq_ok_iff.mp h
      obtain ⟨zs, hn, hv, hzs, rfl⟩ := Memory.setList_eq_ok_iff.mp hm
      cases hv
      exact ⟨_, .list hn hzs, rfl⟩
    · rintro ⟨y, hy, rfl⟩
      cases hy with
      | list hn hzs =>
        exact Action.store_eq_ok_iff.mpr
          ⟨_, Memory.setList_eq_ok_iff.mpr ⟨_, hn, rfl, hzs, rfl⟩, rfl⟩

/-- An assignment to a memory that is not locked succeeds exactly if it comes to a write. -/
theorem exists_run_iff (hw : w.memory.locked = none) :
    (∃ w', x.run w = .ok () w') ↔ ∃ y, x.Stores y := by
  simp only [run_eq_ok_iff hw]
  constructor
  · rintro ⟨w', y, hy, -⟩
    exact ⟨y, hy⟩
  · rintro ⟨y, hy⟩
    exact ⟨_, y, hy, rfl⟩

/-- An assignment that fails changes nothing. -/
theorem eq_of_run_error {f : Fault} (h : x.run w = .error f w') : w' = w := by
  cases x with
  | ans v => cases h
  | number c v => exact Action.eq_of_store_error h
  | list n v => exact Action.eq_of_store_error h

/-- An assignment comes to one write, or it fails and changes nothing. -/
theorem world_run_cases (hw : w.memory.locked = none) (x : Assignment) :
    (∃ y, x.Stores y ∧ Outcome.world (x.run w) = { w with memory := w.memory.write y }) ∨
      (∀ y, ¬ x.Stores y) ∧ Outcome.world (x.run w) = w := by
  cases hrun : x.run w with
  | ok _ w' =>
    obtain ⟨y, hy, hw'⟩ := (run_eq_ok_iff hw).mp hrun
    exact .inl ⟨y, hy, hw'⟩
  | error f w' =>
    refine .inr ⟨fun y hy => ?_, eq_of_run_error hrun⟩
    have hok := (run_eq_ok_iff hw).mpr ⟨y, hy, rfl⟩
    rw [hrun] at hok
    cases hok

/-- One more assignment adds what it stores. -/
theorem everStored_append : EverStored (xs ++ [x]) y ↔ EverStored xs y ∨ x.Stores y := by
  simp [EverStored, or_and_right, exists_or]

/-- What the last assignment stores is the last to be stored at its place. -/
private theorem lastStored_append (h : x.Stores y) : LastStored (xs ++ [x]) y :=
  ⟨xs, x, [], rfl, h, by simp [EverStored]⟩

/-- An assignment to another place leaves what was stored last. -/
private theorem LastStored.append (h : LastStored xs y)
    (hx : ∀ y', x.Stores y' → y'.target ≠ y.target) : LastStored (xs ++ [x]) y := by
  obtain ⟨before, x₀, after, rfl, hx₀, hafter⟩ := h
  refine ⟨before, x₀, after ++ [x], by simp, hx₀, fun y' hy' => ?_⟩
  rcases everStored_append.mp hy' with hy' | hy'
  · exact hafter y' hy'
  · exact hx y' hy'

private theorem LastStored.everStored (h : LastStored xs y) : EverStored xs y := by
  obtain ⟨before, x, after, rfl, hx, -⟩ := h
  exact ⟨x, by simp, hx⟩

/-- The last result is always set to a value. -/
theorem LastStored.eq_ans (h : LastStored xs y) (hy : y.target = none) :
    ∃ v, y = .ans (some v) := by
  obtain ⟨-, x, -, -, hx, -⟩ := h
  cases hx with
  | number | list => cases hy
  | ans v => exact ⟨v, rfl⟩

end Assignment

/-- The bytes of characters are ordered like the characters, whatever bytes follow: the first byte
tells how many there are, and a longer code point has a greater first byte. -/
theorem encode_lt_encode {c d : Char} (h : c < d) (rest rest' : List UInt8) :
    String.utf8EncodeChar c ++ rest < String.utf8EncodeChar d ++ rest' := by
  have hlt : c.val.toNat < d.val.toNat := h
  have hd : d.val.toNat < 0x110000 := d.valid.elim (fun h => Nat.lt_trans h (by decide)) (·.2)
  unfold String.utf8EncodeChar
  generalize c.val.toNat = m at hlt ⊢
  generalize d.val.toNat = n at hlt hd ⊢
  simp only
  repeat' split
  all_goals
    simp (disch := omega) only [List.cons_append, List.nil_append, List.cons_lt_cons_iff,
      UInt8.lt_iff_toNat_lt, ← UInt8.toNat_inj, UInt8.toNat_ofNat', Nat.mod_eq_of_lt]
    omega

/-- Texts are ordered by their bytes as by their characters. -/
theorem bytes_lt_of_lt {a b : String} (h : a < b) :
    a.toByteArray.data.toList < b.toByteArray.data.toList := by
  have hbytes (s : String) :
      s.toByteArray.data.toList = s.toList.flatMap String.utf8EncodeChar := by
    rw [← String.utf8Encode_toList, List.utf8Encode, List.data_toByteArray]
  rw [hbytes, hbytes]
  have hchars : List.Lex (· < ·) a.toList b.toList := List.lex_lt.mpr (String.lt_iff.mp h)
  generalize a.toList = cs at hchars
  generalize b.toList = ds at hchars
  induction hchars with
  | @nil d ds =>
    rw [List.flatMap_cons]
    obtain ⟨byte, bytes, hd⟩ := List.exists_cons_of_ne_nil (@String.utf8EncodeChar_ne_nil d)
    rw [hd]
    exact List.nil_lt_cons _ _
  | cons _ ih =>
    rw [List.flatMap_cons, List.flatMap_cons]
    exact List.append_left_lt ih
  | rel hcd =>
    rw [List.flatMap_cons, List.flatMap_cons]
    exact encode_lt_encode hcd _ _

namespace World

open Assignment

/-- The world after some assignments, made in their order, those that fail included. -/
def assign (w : World) (xs : List Assignment) : World :=
  xs.foldl (fun w x => Outcome.world (x.run w)) w

variable {w : World}

/-- One more assignment is made after the others. -/
theorem assign_append (w : World) (xs : List Assignment) (x : Assignment) :
    w.assign (xs ++ [x]) = Outcome.world (x.run (w.assign xs)) := by
  rw [assign, List.foldl_append]
  rfl

/-- No assignment locks a memory. -/
private theorem locked_assign (hw : w.memory.locked = none) (xs : List Assignment) :
    (w.assign xs).memory.locked = none := by
  induction xs using List.reverseRecOn with
  | nil => exact hw
  | append_singleton xs x ih =>
    rw [assign_append]
    rcases world_run_cases ih x with ⟨y, -, hrun⟩ | ⟨-, hrun⟩
    · rw [hrun]
      exact (Memory.locked_write _ y).trans ih
    · rwa [hrun]

/-- Each place holds what the last accepted assignment to it stored, or what it held before. A new
assignment is the last one to its place, and no other place sees it. -/
theorem slot_assign (hw : w.memory.locked = none) (xs : List Assignment) (t : Option Target) :
    (∃ y, LastStored xs y ∧ y.target = t ∧ (w.assign xs).memory.slot t = y.value) ∨
      (∀ y, EverStored xs y → y.target ≠ t) ∧ (w.assign xs).memory.slot t = w.memory.slot t := by
  induction xs using List.reverseRecOn with
  | nil => exact .inr ⟨by simp [EverStored], rfl⟩
  | append_singleton xs x ih =>
    rw [assign_append]
    rcases world_run_cases (locked_assign hw xs) x with ⟨y, hy, hrun⟩ | ⟨hnone, hrun⟩
    · rw [hrun, Memory.slot_write]
      by_cases ht : y.target = t
      · exact .inl ⟨y, lastStored_append hy, ht, if_pos ht⟩
      · rw [if_neg ht]
        have hother : ∀ y', x.Stores y' → y'.target ≠ t := fun y' hy' => by
          rwa [hy'.target_eq, ← hy.target_eq]
        rcases ih with ⟨y₀, hlast, rfl, hslot⟩ | ⟨hnever, hslot⟩
        · exact .inl ⟨y₀, hlast.append hother, rfl, hslot⟩
        · refine .inr ⟨fun y' hy' => ?_, hslot⟩
          exact (everStored_append.mp hy').elim (hnever y') (hother y')
    · rw [hrun]
      rcases ih with ⟨y₀, hlast, ht, hslot⟩ | ⟨hnever, hslot⟩
      · exact .inl ⟨y₀, hlast.append fun y' hy' => absurd hy' (hnone y'), ht, hslot⟩
      · refine .inr ⟨fun y' hy' => ?_, hslot⟩
        exact (everStored_append.mp hy').elim (hnever y') fun h => absurd h (hnone y')

section New

variable (d : Device) (threshold : Level) (xs : List Assignment)

/-- A number variable of a new memory holds what was last stored in it, or zero. -/
private theorem number_assign_new (c : Char) :
    (∃ z, LastStored xs (.number c z) ∧ ((new d threshold).assign xs).memory.number c = z) ∨
      (∀ z, ¬ EverStored xs (.number c z)) ∧
        ((new d threshold).assign xs).memory.number c = .zero := by
  rcases slot_assign (w := new d threshold) rfl xs (some (.var c)) with
    ⟨y, hlast, ht, hv⟩ | ⟨hnever, hv⟩
  · obtain ⟨z, rfl⟩ := Write.eq_number_of_target ht
    exact .inl ⟨z, hlast, Value.number.inj (Option.some.inj hv)⟩
  · exact .inr ⟨fun z h => hnever _ h rfl, Value.number.inj (Option.some.inj hv)⟩

/-- A list variable of a new memory holds what was last stored in it, or is undefined. -/
private theorem list_assign_new (n : String) :
    (∃ zs, LastStored xs (.list n zs) ∧ ((new d threshold).assign xs).memory.list n = .ok zs) ∨
      (∀ zs, ¬ EverStored xs (.list n zs)) ∧
        ((new d threshold).assign xs).memory.list n = .error (.undefinedList n) := by
  rcases slot_assign (w := new d threshold) rfl xs (some (.list n)) with
    ⟨y, hlast, ht, hv⟩ | ⟨hnever, hv⟩
  · obtain ⟨zs, rfl⟩ := Write.eq_list_of_target ht
    exact .inl ⟨zs, hlast, Memory.slot_list_eq_some_iff.mp hv⟩
  · exact .inr ⟨fun zs h => hnever _ h rfl, Memory.slot_list_eq_none_iff.mp hv⟩

/-- The last result of a new memory is what was last stored as such, or zero. -/
private theorem ans_assign_new :
    (∃ v, LastStored xs (.ans (some v)) ∧ ((new d threshold).assign xs).memory.ans = some v) ∨
      (∀ v, ¬ EverStored xs (.ans v)) ∧
        ((new d threshold).assign xs).memory.ans = some (.number .zero) := by
  rcases slot_assign (w := new d threshold) rfl xs none with ⟨y, hlast, ht, hv⟩ | ⟨hnever, hv⟩
  · obtain ⟨v, rfl⟩ := hlast.eq_ans ht
    exact .inl ⟨v, hlast, hv⟩
  · exact .inr ⟨fun v h => hnever _ h rfl, hv⟩

/-- The lists that are named are those that were ever stored. -/
theorem mem_listNames_assign_new (n : String) :
    n ∈ ((new d threshold).assign xs).memory.listNames ↔ ∃ zs, EverStored xs (.list n zs) := by
  rw [Memory.mem_listNames_iff]
  rcases list_assign_new d threshold xs n with ⟨zs, hlast, hn⟩ | ⟨hnever, hn⟩
  · exact ⟨fun _ => ⟨zs, hlast.everStored⟩, fun _ => ⟨zs, hn⟩⟩
  · rw [hn]
    constructor
    · rintro ⟨zs, hzs⟩
      cases hzs
    · rintro ⟨zs, hzs⟩
      exact absurd hzs (hnever zs)

end New

/-- After any assignments to a new memory, each numeric variable, each list and the last result is
what the last accepted assignment to it stored; where there is none, a number is zero, a list is
undefined and the last result is zero. An assignment is accepted if its name is valid and its value
is of the right kind, and not too long a list. One that is refused changes nothing, and one that is
accepted changes its own place only. The names of the lists are those that were ever stored, each
once, in increasing order of their code points and so of their bytes. -/
theorem assign_new (d : Device) (threshold : Level) (xs : List Assignment) :
    let w := (new d threshold).assign xs
    (∀ c, (∃ z, LastStored xs (.number c z) ∧ w.memory.number c = z) ∨
      (∀ z, ¬ EverStored xs (.number c z)) ∧ w.memory.number c = .zero) ∧
    (∀ n, (∃ zs, LastStored xs (.list n zs) ∧ w.memory.list n = .ok zs) ∨
      (∀ zs, ¬ EverStored xs (.list n zs)) ∧
        ∃ f, w.memory.list n = .error f ∧ f.reason = .undefined) ∧
    ((∃ v, LastStored xs (.ans (some v)) ∧ w.memory.ans = some v) ∨
      (∀ v, ¬ EverStored xs (.ans v)) ∧ w.memory.ans = some (.number .zero)) ∧
    (∀ x : Assignment, ((∃ w', x.run w = .ok () w') ↔ ∃ y, x.Stores y) ∧
      (∀ f w', x.run w = .error f w' → w' = w) ∧
      ∀ w', x.run w = .ok () w' →
        w'.console = w.console ∧ ∀ t, t ≠ x.target → w'.memory.slot t = w.memory.slot t) ∧
    (∀ n, n ∈ w.memory.listNames ↔ ∃ zs, EverStored xs (.list n zs)) ∧
    w.memory.listNames.Nodup ∧
    w.memory.listNames.Pairwise fun a b =>
      a.toList.map Char.toNat < b.toList.map Char.toNat ∧
        a.toByteArray.data.toList < b.toByteArray.data.toList := by
  intro w
  have hw : w.memory.locked = none := locked_assign rfl xs
  refine ⟨number_assign_new d threshold xs, fun n => ?_, ans_assign_new d threshold xs,
    fun x => ⟨exists_run_iff hw, fun f w' => eq_of_run_error, fun w' hrun => ?_⟩,
    mem_listNames_assign_new d threshold xs, Std.TreeMap.nodup_keys, ?_⟩
  · obtain hstored | ⟨hnever, hn⟩ := list_assign_new d threshold xs n
    · exact .inl hstored
    · exact .inr ⟨hnever, _, hn, rfl⟩
  · obtain ⟨y, hy, rfl⟩ := (run_eq_ok_iff hw).mp hrun
    refine ⟨rfl, fun t ht => ?_⟩
    rw [Memory.slot_write, if_neg (hy.target_eq ▸ ht.symm)]
  · refine Std.TreeMap.ordered_keys.imp fun {a b} hab => ?_
    have hlt : a < b := compareOfLessAndEq_eq_lt.mp hab
    exact ⟨List.map_lt (fun _ _ h => h) (String.lt_iff.mp hlt), bytes_lt_of_lt hlt⟩

/-- A list and a refused string under its name, and then a number that leaves the list alone. -/
theorem assign_new_list :
    let xs : List Assignment := [.list "Z" (.list [.one]), .list "Z" (.string "?"),
      .number 'a' (.number .one)]
    let w := (World.new (.stream "") .trace).assign xs
    let more : Assignment := .number 'A' (.number .one)
    EverStored xs (.list "Z" [.one]) ∧ "Z" ∈ w.memory.listNames ∧ w.memory.number 'A' = .zero ∧
      (∃ f, (Assignment.list "Z" (.string "?")).run w = .error f w) ∧
      ∃ w', more.run w = .ok () w' ∧
        w'.memory.slot (some (.list "Z")) = w.memory.slot (some (.list "Z")) := by
  intro xs w more
  obtain ⟨hnumber, -, -, hassign, hnames, -⟩ := assign_new (.stream "") .trace xs
  have hstored : EverStored xs (.list "Z" [.one]) :=
    ⟨_, List.mem_cons_self .., .list (by decide) (by decide)⟩
  have hzero : w.memory.number 'A' = .zero := by
    rcases hnumber 'A' with ⟨z, ⟨before, x, after, hxs, hx, -⟩, -⟩ | ⟨-, h⟩
    · have hmem : x ∈ xs := by rw [hxs]; simp
      cases hx
      simp [xs] at hmem
    · exact h
  have hrefused : ∃ f, (Assignment.list "Z" (.string "?")).run w = .error f w := by
    cases hrun : (Assignment.list "Z" (.string "?")).run w with
    | ok _ w' =>
      obtain ⟨y, hy⟩ := (hassign (.list "Z" (.string "?"))).1.mp ⟨w', hrun⟩
      cases hy
    | error f w' =>
      obtain rfl := (hassign (.list "Z" (.string "?"))).2.1 f w' hrun
      exact ⟨f, rfl⟩
  obtain ⟨w', hrun⟩ := (hassign more).1.mpr ⟨_, .number (by decide)⟩
  exact ⟨hstored, (hnames "Z").mpr ⟨_, hstored⟩, hzero, hrefused, w', hrun,
    ((hassign more).2.2 w' hrun).2 _ (by simp [more, Assignment.target])⟩

end World

end Handheld
