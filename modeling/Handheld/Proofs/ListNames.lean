import Handheld.Proofs.HomeScreen
import Handheld.Proofs.Slots

/-!
# Names of lists

The names that the memory accepts for lists are those that a program can write. The lexer takes a
subscript digit or the longest run of name characters behind the mark, and asks nothing more;
normalization then refuses what is no name. Together they let through exactly the valid names, so a
list that was stored can be read by its written name, and a list that stands in a normalized program
can be stored.
-/

namespace Handheld

variable {n : String}

/-- A valid name behind the mark is read as one symbol. -/
theorem Token.scan_list (hn : Name.checkList n = .ok ()) :
    scan (Name.listMarker.toString ++ n) = .ok [⟨.list n, .start⟩] := by
  have hread : ∀ s ∈ [Symbol.list n], s.ReadsBack := by simpa using Symbol.readsBack_list hn
  have htext : (Name.listMarker.toString ++ n).toList = written [.list n] := by
    simp [written, blankBetween, Symbol.text]
  rw [scan, htext]
  exact scanFrom_written_placed hread .start

/-- A list alone is normal if its name is valid. -/
theorem Token.normalize_list_eq_ok_iff {p : Position} {out : List Token} :
    normalize [⟨.list n, p⟩] = .ok out ↔ Name.checkList n = .ok () ∧ out = [⟨.list n, p⟩] := by
  cases hn : Name.checkList n with
  | error f => simp [normalize, normalizeFrom, bracketing, hn]
  | ok _ => simp [normalize, normalizeFrom, bracketing, hn, closers, eq_comm]

namespace Program

/-- A list with a valid name is its own normalized text. -/
private theorem normalizedText_list (hn : Name.checkList n = .ok ()) :
    normalizedText (Name.listMarker.toString ++ n) = .ok (Name.listMarker.toString ++ n) := by
  have hnormal := (Token.normalize_list_eq_ok_iff (p := .start)).mpr ⟨hn, rfl⟩
  refine normalizedText_eq_ok_iff.mpr ⟨_, _, Token.scan_list hn, hnormal, ?_⟩
  rw [← String.toList_inj, Token.toList_render_eq_written]
  simp [Token.written, Token.blankBetween, Symbol.text]

/-- A valid name behind the mark forms the expression that reads the list. -/
theorem parseExpression_list (hn : Name.checkList n = .ok ()) :
    parseExpression (Name.listMarker.toString ++ n) = .ok (.listVar n .start) := by
  have htokens : normalizedTokens (Name.listMarker.toString ++ n) = .ok [⟨.list n, .start⟩] := by
    rw [normalizedTokens, normalizedText_list hn]
    exact congrArg (Except.mapError Fault.lex) (Token.scan_list hn)
  have htree : Tree.Expression [⟨.list n, .start⟩] (.listVar n .start) :=
    .chain (.trailed (.leaf (.list n .start)) .nil) .nil .single
  exact parseExpression_of_tree htokens htree

end Program

/-- A list that is defined is read by its written name. -/
theorem Expr.evalText_list (r : Registry) (hn : Name.checkList n = .ok ()) {w : World}
    {zs : List Number} (h : w.memory.list n = .ok zs) :
    evalText r (Name.listMarker.toString ++ n) w = .ok (some (.list zs)) w := by
  rw [evalText_of_parseExpression (Program.parseExpression_list hn), eval]
  change EStateM.bind (Action.ofExcept (w.memory.list n)) _ w = _
  rw [h]
  rfl

/-- Every memory accepts the lists with this name, unless they are too long. -/
def Name.Storable (n : String) : Prop :=
  ∀ (m : Memory) (zs : List Number), zs.length ≤ Value.maxListLength →
    ∃ m', m.setList n (some (.list zs)) = .ok m'

/-- A list with a valid name can be stored. -/
private theorem Name.storable_of_checkList (hn : checkList n = .ok ()) : Storable n :=
  fun _ zs hzs => ⟨_, Memory.setList_eq_ok_iff.mpr ⟨zs, hn, rfl, hzs, rfl⟩⟩

/-- The valid names of lists are those that a program can write: the name behind the mark is read as
one symbol with that name, and normalization does not refuse it. So a value that is stored in a list
is what the written name of the list then gives, and a list that stands in a normalized program, or
that is read from its text, can be stored. -/
theorem checkList_eq_ok_iff_scan (n : String) :
    (Name.checkList n = .ok () ↔
      Token.scan (Name.listMarker.toString ++ n) = .ok [⟨.list n, .start⟩] ∧
        ∃ text, Program.normalizedText (Name.listMarker.toString ++ n) = .ok text) ∧
    (∀ r m m' v w, Memory.setList m n v = .ok m' → w.memory = m' →
      Expr.evalText r (Name.listMarker.toString ++ n) w = .ok v w) ∧
    (∀ ts out, Token.normalize ts = .ok out → .list n ∈ Token.symbols out → Name.Storable n) ∧
    ∀ source ts, Program.normalizedTokens source = .ok ts → .list n ∈ Token.symbols ts →
      Name.Storable n := by
  refine ⟨⟨fun hn => ⟨Token.scan_list hn, _, Program.normalizedText_list hn⟩, ?_⟩, ?_, ?_, ?_⟩
  · rintro ⟨hscan, text, htext⟩
    obtain ⟨ts, out, hts, hnormal, -⟩ := Program.normalizedText_eq_ok_iff.mp htext
    rw [hscan] at hts
    cases hts
    exact (Token.normalize_list_eq_ok_iff.mp hnormal).1
  · rintro r m m' v w hset rfl
    obtain ⟨zs, hn, rfl, -, hm⟩ := Memory.setList_eq_ok_iff.mp hset
    refine Expr.evalText_list r hn (Memory.slot_list_eq_some_iff.mp ?_)
    rw [hm, Memory.slot_write]
    exact if_pos rfl
  · intro ts out hnormal hmem
    exact Name.storable_of_checkList ((Token.normal_of_normalize hnormal).1.named n hmem)
  · intro source ts hts hmem
    obtain ⟨t, ht, hsymbol⟩ := List.mem_map.mp hmem
    have hproper := Program.allProper_of_normalizedTokens hts t ht
    rw [hsymbol] at hproper
    exact Name.storable_of_checkList hproper

/-- A name of a letter and a digit: the list is stored, read, and found in a program that leaves a
parenthesis open. -/
theorem checkList_eq_ok_iff_scan_theta :
    let m := Memory.fresh.write (.list "θ1" [.one])
    let w : World := { World.new (.stream "") .trace with memory := m }
    let t : Token := ⟨.list "θ1", ⟨1, 6⟩⟩
    Name.checkList "θ1" = .ok () ∧ Token.scan "∟θ1" = .ok [⟨.list "θ1", .start⟩] ∧
      Memory.fresh.setList "θ1" (some (.list [.one])) = .ok m ∧
      Expr.evalText Builtin.registry "∟θ1" w = .ok (some (.list [.one])) w ∧
      (Token.normalize [t] = .ok [t] ∧ Name.Storable "θ1") ∧
      Program.normalizedTokens "dim(∟θ1" =
        .ok [⟨.function "dim", .start⟩, t, ⟨.rightParen, ⟨1, 10⟩⟩] ∧
      ∃ m', Memory.fresh.setList "θ1" (some (.list [])) = .ok m' := by
  intro m w t
  obtain ⟨hiff, hread, hnormal, htokens⟩ := checkList_eq_ok_iff_scan "θ1"
  have hn : Name.checkList "θ1" = .ok () := by decide
  have hset : Memory.fresh.setList "θ1" (some (.list [.one])) = .ok m :=
    Memory.setList_eq_ok_iff.mpr ⟨_, hn, rfl, by decide, rfl⟩
  have ht : Token.normalize [t] = .ok [t] := Token.normalize_list_eq_ok_iff.mpr ⟨hn, rfl⟩
  have hsource : Program.normalizedTokens "dim(∟θ1" =
      .ok [⟨.function "dim", .start⟩, t, ⟨.rightParen, ⟨1, 10⟩⟩] :=
    Except.eq_ok_of_toOption (by decide +kernel)
  have hstorable : Name.Storable "θ1" := htokens _ _ hsource (by simp [t])
  exact ⟨hn, (hiff.mp hn).1, hset, hread _ _ _ _ w hset rfl, ⟨ht, hnormal _ _ ht (by simp [t])⟩,
    hsource, hstorable .fresh [] (by decide)⟩

end Handheld
