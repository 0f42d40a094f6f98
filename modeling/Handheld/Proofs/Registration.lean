import Handheld.Workshop
import Mathlib.Logic.Relation

/-!
# Registered tools and their owners

Which tools an environment has is written down there, and who owns a tool is written down in the
tool. The two agree after any requests to a workshop, whether they succeed or fail, because each
request does one thing, or several in a row: it binds one free name to one tool without an owner, or
it changes neither names nor owners. What is bound therefore stays bound.
-/

namespace Handheld

namespace Workshop

variable {s s' : Workshop} {env tool : Nat} {name : String}

/-- One free name of an environment was bound to one tool without an owner, and nothing else. -/
structure Binds (s s' : Workshop) (env : Nat) (name : String) (tool : Nat) : Prop where
  /-- The name was free. -/
  free : s.find? env name = none
  /-- The tool had no owner. -/
  unowned : s.owner? tool = none
  /-- The name is bound now, and the others are as they were. -/
  find : ∀ env' name', s'.find? env' name' =
    if env' = env ∧ name' = name then some tool else s.find? env' name'
  /-- The tool has an owner now, and the others are as they were. -/
  owner : ∀ tool', s'.owner? tool' = if tool' = tool then some env else s.owner? tool'

/-- One thing that a request can do to names and owners. -/
inductive Change (s s' : Workshop) : Prop
  /-- Names and owners are as they were. -/
  | same (hfind : s'.find? = s.find?) (howner : s'.owner? = s.owner?)
  /-- A name was bound. -/
  | bound {env : Nat} {name : String} {tool : Nat} (h : Binds s s' env name tool)

/-- Several such things in a row. -/
abbrev Changes : Workshop → Workshop → Prop := Relation.ReflTransGen Change

/-- A new environment has no names. -/
private theorem find?_addEnvironment (s : Workshop) (label : String) (m : Memory) :
    (s.addEnvironment label m).2.find? = s.find? := by
  funext env name
  change ((s.environments.push ⟨label, m, ∅⟩)[env]?).bind (·.tools[name]?) =
    (s.environments[env]?).bind (·.tools[name]?)
  rw [Array.getElem?_push]
  split
  · next henv =>
    have hnone : s.environments[env]? = none := Array.getElem?_eq_none (Nat.le_of_eq henv.symm)
    rw [hnone]
    simp
  · rfl

/-- A new tool has no owner. -/
private theorem owner?_addTool (s : Workshop) (c : Command) :
    (s.addTool c).2.owner? = s.owner? := by
  funext tool
  change ((s.tools.push ⟨c, none⟩)[tool]?).bind (·.owner) = (s.tools[tool]?).bind (·.owner)
  rw [Array.getElem?_push]
  split
  · next htool =>
    have hnone : s.tools[tool]? = none := Array.getElem?_eq_none (Nat.le_of_eq htool.symm)
    rw [hnone]
    rfl
  · rfl

private theorem change_addEnvironment (s : Workshop) (label : String) (m : Memory) :
    Change s (s.addEnvironment label m).2 := .same (s.find?_addEnvironment label m) rfl

private theorem change_addTool (s : Workshop) (c : Command) : Change s (s.addTool c).2 :=
  .same rfl (s.owner?_addTool c)

/-- A tool is registered exactly if the name is free and the tool has no owner. -/
theorem register_ok_iff :
    (s.register env name tool).1 = .ok () ↔ s.find? env name = none ∧ s.owner? tool = none := by
  unfold register
  cases s.find? env name with
  | some taken => simp
  | none =>
    cases s.owner? tool with
    | some o => simp
    | none => simp

/-- A refused request changes nothing at all. -/
theorem register_refused {f : Fault} (h : (s.register env name tool).1 = .error f) :
    (s.register env name tool).2 = s := by
  unfold register at h ⊢
  cases hfind : s.find? env name with
  | some taken => rfl
  | none =>
    cases howner : s.owner? tool with
    | some o => rfl
    | none =>
      rw [hfind, howner] at h
      cases h

/-- Registering a tool makes and removes neither environments nor tools. -/
theorem sizes_register : (s.register env name tool).2.environments.size = s.environments.size ∧
    (s.register env name tool).2.tools.size = s.tools.size := by
  unfold register
  split
  · exact ⟨rfl, rfl⟩
  · exact ⟨rfl, rfl⟩
  · exact ⟨Array.size_modify, Array.size_modify⟩

/-- A tool that is registered has the name, and is owned by the environment. -/
private theorem binds_register (henv : env < s.environments.size) (htool : tool < s.tools.size)
    (h : (s.register env name tool).1 = .ok ()) :
    Binds s (s.register env name tool).2 env name tool := by
  obtain ⟨hfree, hunowned⟩ := register_ok_iff.mp h
  have hstate : (s.register env name tool).2 =
      { s with
        environments :=
          s.environments.modify env fun e => { e with tools := e.tools.insert name tool }
        tools := s.tools.modify tool fun t => { t with owner := some env }
        log := s.log.record (.registered name) } := by
    unfold register
    rw [hfree, hunowned]
  rw [hstate]
  refine ⟨hfree, hunowned, fun env' name' => ?_, fun tool' => ?_⟩
  · change ((s.environments.modify env _)[env']?).bind (·.tools[name']?) = _
    rw [Array.getElem?_modify]
    by_cases henv' : env = env'
    · subst henv'
      have hsome := Array.getElem?_eq_getElem henv
      rw [if_pos rfl]
      unfold find?
      rw [hsome, Option.map_some, Option.bind_some, Option.bind_some,
        Std.TreeMap.getElem?_insert]
      by_cases hname : name' = name
      · subst hname
        simp
      · have hcompare : ¬ compare name name' = .eq := by
          intro heq
          exact hname (Std.LawfulEqCmp.eq_of_compare heq).symm
        rw [if_neg hcompare, if_neg (fun h => hname h.2)]
    · rw [if_neg henv', if_neg fun h => henv' h.1.symm]
      rfl
  · change ((s.tools.modify tool _)[tool']?).bind (·.owner) = _
    rw [Array.getElem?_modify]
    by_cases htool' : tool = tool'
    · subst htool'
      rw [if_pos rfl, if_pos rfl, Array.getElem?_eq_getElem htool]
      rfl
    · rw [if_neg htool', if_neg fun h => htool' h.symm]
      rfl

/-- Registering is one change at most. -/
private theorem change_register (henv : env < s.environments.size) (htool : tool < s.tools.size) :
    Change s (s.register env name tool).2 := by
  cases h : (s.register env name tool).1 with
  | ok u => exact .bound (binds_register henv htool h)
  | error f =>
    rw [register_refused h]
    exact .same rfl rfl

/-- Tools are registered in their order up to the first one that is refused. -/
private theorem registerAll_cons (c : Command) (cs : List (String × Command)) (s : Workshop) :
    registerAll env ((name, c) :: cs) s =
      match (s.addTool c).2.register env name s.tools.size with
      | (.error f, s) => (.error (.during s!"loading builtin {name}: " f), s)
      | (.ok (), s) => registerAll env cs s := rfl

/-- Registering commands binds names to new tools, one after the other, as far as it gets. The new
tool has the number that comes next, so the tools from before keep their owners. -/
theorem changes_registerAll (cs : List (String × Command)) (henv : env < s.environments.size) :
    Changes s (registerAll env cs s).2 ∧
      ∀ tool < s.tools.size, (registerAll env cs s).2.owner? tool = s.owner? tool := by
  induction cs generalizing s with
  | nil => exact ⟨.refl, fun _ _ => rfl⟩
  | cons entry cs ih =>
    obtain ⟨name, c⟩ := entry
    have hnew : s.tools.size < (s.addTool c).2.tools.size := by
      change s.tools.size < (s.tools.push ⟨c, none⟩).size
      rw [Array.size_push]
      exact Nat.lt_succ_self _
    have henv' : env < (s.addTool c).2.environments.size := henv
    have hadd : Changes s (s.addTool c).2 := .single (s.change_addTool c)
    have hregister : Change (s.addTool c).2 ((s.addTool c).2.register env name s.tools.size).2 :=
      change_register henv' hnew
    have hsizes : ((s.addTool c).2.register env name s.tools.size).2.environments.size =
          s.environments.size ∧
        ((s.addTool c).2.register env name s.tools.size).2.tools.size =
          (s.addTool c).2.tools.size := sizes_register
    have hrefused (f : Fault) := @register_refused (s.addTool c).2 env s.tools.size name f
    have hbinds := @binds_register (s.addTool c).2 env s.tools.size name henv' hnew
    rw [registerAll_cons]
    cases hresult : (s.addTool c).2.register env name s.tools.size with
    | mk result s₂ =>
      rw [hresult] at hregister hsizes hrefused hbinds
      cases result with
      | error f =>
        refine ⟨hadd.tail hregister, fun tool _ => ?_⟩
        have hsame : s₂ = (s.addTool c).2 := hrefused f rfl
        change s₂.owner? tool = s.owner? tool
        rw [hsame, owner?_addTool]
      | ok u =>
        have hmore := @ih s₂ (hsizes.1 ▸ henv)
        refine ⟨(hadd.tail hregister).trans hmore.1, fun tool htool => ?_⟩
        have hold : tool < s₂.tools.size ∧ tool ≠ s.tools.size := by
          rw [hsizes.2]
          omega
        rw [hmore.2 tool hold.1, (hbinds rfl).owner, if_neg hold.2, owner?_addTool]

/-- One request to a workshop, about environments and tools that it has. -/
inductive Step : Workshop → Workshop → Prop
  /-- Makes an environment. -/
  | addEnvironment (s : Workshop) (label : String) (m : Memory) :
      Step s (s.addEnvironment label m).2
  /-- Makes a tool. -/
  | addTool (s : Workshop) (c : Command) : Step s (s.addTool c).2
  /-- Registers a tool, if it can be. -/
  | register {s : Workshop} {env tool : Nat} (name : String) (henv : env < s.environments.size)
      (htool : tool < s.tools.size) : Step s (s.register env name tool).2
  /-- Registers the built-in commands, as far as they can be. -/
  | loadBuiltins {s : Workshop} {env : Nat} (henv : env < s.environments.size) :
      Step s (s.loadBuiltins env).2

/-- Any number of requests. -/
abbrev Reach : Workshop → Workshop → Prop := Relation.ReflTransGen Step

/-- One request makes such changes only. -/
private theorem Step.changes (h : Step s s') : Changes s s' := by
  cases h with
  | addEnvironment label m => exact .single (s.change_addEnvironment label m)
  | addTool c => exact .single (s.change_addTool c)
  | register name henv htool => exact .single (change_register henv htool)
  | loadBuiltins henv => exact (changes_registerAll Builtin.commands henv).1

/-- All requests together make such changes only. -/
private theorem Reach.changes (h : Reach s s') : Changes s s' := by
  induction h with
  | refl => exact .refl
  | tail _ hstep ih => exact ih.trans hstep.changes

/-- Names are bound for ever. -/
theorem Changes.find? (h : Changes s s') (hfind : s.find? env name = some tool) :
    s'.find? env name = some tool := by
  induction h with
  | refl => exact hfind
  | @tail s₁ s₂ _ hchange ih =>
    cases hchange with
    | same hsame _ => rw [hsame, ih]
    | @bound env' name' tool' hbinds =>
      rw [hbinds.find]
      split
      · next heq =>
        obtain ⟨rfl, rfl⟩ := heq
        rw [hbinds.free] at ih
        cases ih
      · exact ih

/-- Names and owners agree. -/
structure Agrees (s : Workshop) : Prop where
  /-- A tool that has a name is owned by the environment of the name. -/
  owned : ∀ env name tool, s.find? env name = some tool → s.owner? tool = some env
  /-- A tool that is owned has a name there. -/
  named : ∀ env tool, s.owner? tool = some env → ∃ name, s.find? env name = some tool
  /-- It has no other name there. -/
  once : ∀ env name name' tool, s.find? env name = some tool → s.find? env name' = some tool →
    name' = name

/-- In a new workshop there are neither names nor owners. -/
private theorem agrees_new (d : Device) (threshold : Level) : (new d threshold).Agrees := by
  have hfind (env : Nat) (name : String) : (new d threshold).find? env name = none := rfl
  have howner (tool : Nat) : (new d threshold).owner? tool = none := rfl
  constructor
  · intro env name tool h
    rw [hfind] at h
    cases h
  · intro env tool h
    rw [howner] at h
    cases h
  · intro env name name' tool h
    rw [hfind] at h
    cases h

/-- A tool without an owner has no name. -/
private theorem Agrees.find?_ne_of_unowned (h : s.Agrees) (hunowned : s.owner? tool = none)
    (env : Nat) (name : String) : s.find? env name ≠ some tool := by
  intro hfind
  have howned := h.owned env name tool hfind
  rw [hunowned] at howned
  cases howned

/-- The names after one was bound: the new one, and those from before. -/
private theorem Binds.find?_eq_some_iff {env₀ tool₀ : Nat} {name₀ : String}
    (h : Binds s s' env₀ name₀ tool₀) (env : Nat) (name : String) (tool : Nat) :
    s'.find? env name = some tool ↔
      (env = env₀ ∧ name = name₀ ∧ tool = tool₀) ∨ s.find? env name = some tool := by
  rw [h.find]
  by_cases hnew : env = env₀ ∧ name = name₀
  · obtain ⟨rfl, rfl⟩ := hnew
    simp [h.free, eq_comm]
  · rw [if_neg hnew]
    constructor
    · exact .inr
    · rintro (⟨rfl, rfl, -⟩ | hfind)
      · exact absurd ⟨rfl, rfl⟩ hnew
      · exact hfind

/-- Every change keeps names and owners in agreement: a name that is bound is the only one of its
tool, and the other tools have the names that they had. -/
private theorem Agrees.change (h : s.Agrees) (hchange : Change s s') : s'.Agrees := by
  cases hchange with
  | same hfind howner =>
    constructor
    · rw [hfind, howner]
      exact h.owned
    · rw [hfind, howner]
      exact h.named
    · rw [hfind]
      exact h.once
  | @bound env₀ name₀ tool₀ hbinds =>
    have hunbound := h.find?_ne_of_unowned hbinds.unowned
    have hfind_iff := hbinds.find?_eq_some_iff
    refine ⟨fun env name tool hfind => ?_, fun env tool howner => ?_,
      fun env name name' tool hfind hfind' => ?_⟩
    · rw [hbinds.owner]
      rcases (hfind_iff env name tool).mp hfind with ⟨rfl, rfl, rfl⟩ | hold
      · rw [if_pos rfl]
      · have hne : tool ≠ tool₀ := by
          rintro rfl
          exact hunbound env name hold
        rw [if_neg hne, h.owned env name tool hold]
    · rw [hbinds.owner] at howner
      split at howner
      · next heq =>
        cases howner
        exact ⟨name₀, (hfind_iff env₀ name₀ tool).mpr (.inl ⟨rfl, rfl, heq⟩)⟩
      · obtain ⟨name, hold⟩ := h.named env tool howner
        exact ⟨name, (hfind_iff env name tool).mpr (.inr hold)⟩
    · rcases (hfind_iff env name tool).mp hfind with ⟨rfl, rfl, rfl⟩ | hold
      · rcases (hfind_iff env name' tool).mp hfind' with ⟨-, hname, -⟩ | hold'
        · exact hname
        · exact absurd hold' (hunbound env name')
      · rcases (hfind_iff env name' tool).mp hfind' with ⟨-, -, rfl⟩ | hold'
        · exact absurd hold (hunbound env name)
        · exact h.once env name name' tool hold hold'

/-- Names and owners agree after any changes. -/
private theorem Agrees.changes (h : s.Agrees) (hchanges : Changes s s') : s'.Agrees := by
  induction hchanges with
  | refl => exact h
  | tail _ hchange ih => exact ih.change hchange

/-- After any requests about any environments and tools, successful or not: a tool has at most one
name, in one environment; it is owned exactly by the environment where it has a name; a name that is
bound stays bound to its tool through all further requests. A tool can be registered exactly if the
name is free there and the tool has no owner; if so, this binds the name and nothing else, and
otherwise it changes nothing. Loading the built-in commands keeps all names and the owners of all
tools there were, also when it fails. -/
theorem registrations_agree (d : Device) (threshold : Level) (s : Workshop)
    (h : Reach (new d threshold) s) :
    (∀ env name env' name' tool, s.find? env name = some tool → s.find? env' name' = some tool →
      env' = env ∧ name' = name) ∧
    (∀ env tool, s.owner? tool = some env ↔ ∃ name, s.find? env name = some tool) ∧
    (∀ s' env name tool, Reach s s' → s.find? env name = some tool →
      s'.find? env name = some tool) ∧
    (∀ env name tool, env < s.environments.size → tool < s.tools.size →
      ((s.register env name tool).1 = .ok () ↔
        s.find? env name = none ∧ s.owner? tool = none) ∧
      ((s.register env name tool).1 = .ok () →
        Binds s (s.register env name tool).2 env name tool) ∧
      ∀ f, (s.register env name tool).1 = .error f → (s.register env name tool).2 = s) ∧
    (∀ env, env < s.environments.size → ∀ f, (s.loadBuiltins env).1 = .error f →
      (∀ env' name tool, s.find? env' name = some tool →
        (s.loadBuiltins env).2.find? env' name = some tool) ∧
      ∀ tool < s.tools.size, (s.loadBuiltins env).2.owner? tool = s.owner? tool) := by
  have hagrees : s.Agrees := (agrees_new d threshold).changes h.changes
  refine ⟨fun env name env' name' tool hfind hfind' => ?_, fun env tool => ?_,
    fun s' env name tool hreach hfind => hreach.changes.find? hfind, fun env name tool henv htool => ?_,
    fun env henv f _ => ?_⟩
  · have howner := hagrees.owned env name tool hfind
    have howner' := hagrees.owned env' name' tool hfind'
    obtain rfl : env' = env := Option.some.inj (howner'.symm.trans howner)
    exact ⟨rfl, hagrees.once env' name name' tool hfind hfind'⟩
  · constructor
    · exact hagrees.named env tool
    · rintro ⟨name, hfind⟩
      exact hagrees.owned env name tool hfind
  · exact ⟨register_ok_iff, binds_register henv htool, fun f hf => register_refused hf⟩
  · obtain ⟨hchanges, howners⟩ := changes_registerAll Builtin.commands henv
    exact ⟨fun env' name tool hfind => hchanges.find? hfind, howners⟩

/-- Two environments and a tool that takes the name of a built-in command in the first one: it
cannot be registered a second time, and loading the built-in commands fails behind the first two. -/
theorem registrations_agree_taken :
    let s := ((((new (.stream "") .trace).addEnvironment "A" .fresh).2.addEnvironment "B"
      .fresh).2.addTool .display).2
    let s₁ := (s.register 0 "*" 0).2
    Reach (new (.stream "") .trace) s₁ ∧ s₁.find? 0 "*" = some 0 ∧ s₁.owner? 0 = some 0 ∧
      (s₁.register 1 "*" 0).1 ≠ .ok () ∧ (s₁.register 1 "*" 0).2 = s₁ ∧
      (s₁.loadBuiltins 0).1.isOk = false ∧ (s₁.loadBuiltins 0).2.find? 0 "*" = some 0 ∧
      (s₁.loadBuiltins 0).2.find? 0 "-" = some 2 ∧ (s₁.loadBuiltins 0).2.owner? 0 = some 0 := by
  intro s s₁
  have hreach : Reach (new (.stream "") .trace) s₁ :=
    (((Relation.ReflTransGen.single (.addEnvironment _ "A" .fresh)).tail
      (.addEnvironment _ "B" .fresh)).tail (.addTool _ .display)).tail
        (.register "*" (by decide) (by decide))
  obtain ⟨-, howner, -, hregister, hload⟩ := registrations_agree _ _ s₁ hreach
  have hfind : s₁.find? 0 "*" = some 0 := by decide +kernel
  have howned : s₁.owner? 0 = some 0 := (howner 0 0).mpr ⟨"*", hfind⟩
  obtain ⟨hok, -, hrefused⟩ := hregister 1 "*" 0 (by decide +kernel) (by decide +kernel)
  have hfails : (s₁.register 1 "*" 0).1 ≠ .ok () := by
    intro h
    have hnone := (hok.mp h).2
    rw [howned] at hnone
    cases hnone
  have hloadFails : (s₁.loadBuiltins 0).1.isOk = false := by decide +kernel
  have hsecond : (s₁.loadBuiltins 0).2.find? 0 "-" = some 2 := by decide +kernel
  cases hresult : (s₁.register 1 "*" 0).1 with
  | ok u => exact absurd hresult hfails
  | error f =>
    cases hresult' : (s₁.loadBuiltins 0).1 with
    | ok u =>
      rw [hresult'] at hloadFails
      cases hloadFails
    | error g =>
      obtain ⟨hkept, howners⟩ := hload 0 (by decide +kernel) g hresult'
      refine ⟨hreach, hfind, howned, by simp, hrefused f hresult, rfl, hkept 0 "*" 0 hfind, hsecond, ?_⟩
      rw [howners 0 (by decide +kernel), howned]

end Workshop

end Handheld
