import Handheld.Token.Normal
import Mathlib.Data.List.Chain
import Mathlib.Data.List.TakeWhile

/-!
# Normal token lists, described

What a normal list of symbols is, in terms of the list alone: its pieces are well bracketed, no list
lies inside a list literal, its list names are valid, and every product in it is written out. Beside
the description stands the machine that reads a list with the open brackets on a stack and never
closes one by itself. The machine accepts a list if and only if the description holds, products
aside.
-/

namespace Handheld

namespace Symbol

/-- The bracket that a symbol opens. -/
def opens? : Symbol → Option Bracket
  | leftParen | function _ => some .paren
  | leftBrace => some .brace
  | _ => none

/-- The bracket that a symbol closes. -/
def closes? : Symbol → Option Bracket
  | rightParen => some .paren
  | rightBrace => some .brace
  | _ => none

/-- All brackets are closed before this symbol. -/
def isBoundary : Symbol → Bool
  | store | separator => true
  | _ => false

/-- The symbol of a list variable or the beginning of a list literal. -/
def isList : Symbol → Bool
  | list _ | leftBrace => true
  | _ => false

end Symbol

/-- Every opener has its closer. -/
inductive Balanced : List Symbol → Prop
  | nil : Balanced []
  | plain {s : Symbol} {ss : List Symbol} (hopens : s.opens? = none) (hcloses : s.closes? = none)
      (h : Balanced ss) : Balanced (s :: ss)
  | nested {b : Bracket} {s c : Symbol} {inner ss : List Symbol} (hs : s.opens? = some b)
      (hinner : Balanced inner) (hc : c.closes? = some b) (h : Balanced ss) :
      Balanced (s :: (inner ++ c :: ss))

/-- No list lies inside a list literal. -/
def Flat (ss : List Symbol) : Prop :=
  ∀ before inner after, ss = before ++ .leftBrace :: (inner ++ .rightBrace :: after) →
    Balanced inner → ∀ s ∈ inner, s.isList = false

/-- A normal list of symbols. -/
structure Normal (ss : List Symbol) : Prop where
  /-- Cut at the boundaries, every piece is well bracketed. -/
  bracketed : ∀ piece ∈ ss.splitOnP Symbol.isBoundary, Balanced piece
  /-- No list lies inside a list literal, be it in parentheses or not. -/
  flat : Flat ss
  /-- Every list variable has a valid name. -/
  named : ∀ n, .list n ∈ ss → Name.checkList n = .ok ()
  /-- No product is left to be understood. -/
  products : ss.IsChain fun a b => Token.impliesProduct a b = false

/-- A symbol can be read with some open brackets, and leaves others open. -/
inductive Passes : List Bracket → Symbol → List Bracket → Prop
  | opens {opened : List Bracket} {s : Symbol} {b : Bracket} (hs : s.opens? = some b)
      (hflat : .brace ∈ opened → s.isList = false) : Passes opened s (b :: opened)
  | closes {opened : List Bracket} {s : Symbol} {b : Bracket} (hs : s.closes? = some b) :
      Passes (b :: opened) s opened
  | boundary {s : Symbol} (hs : s.isBoundary = true) : Passes [] s []
  | plain {opened : List Bracket} {s : Symbol} (hopens : s.opens? = none)
      (hcloses : s.closes? = none) (hboundary : s.isBoundary = false)
      (hflat : .brace ∈ opened → s.isList = false)
      (hname : ∀ n, s = .list n → Name.checkList n = .ok ()) : Passes opened s opened

/-- The symbols can be read with some open brackets, and close them all. -/
inductive Strict : List Bracket → List Symbol → Prop
  | nil : Strict [] []
  | cons {opened opened' : List Bracket} {s : Symbol} {ss : List Symbol}
      (h : Passes opened s opened') (hss : Strict opened' ss) : Strict opened (s :: ss)

namespace Token

/-- What a symbol closes by itself stands innermost, and after that the symbol is read as it is. A
closing brace may close parentheses by itself, a boundary anything, and other symbols nothing. -/
theorem passes_of_bracketing {opened closed opened' : List Bracket} {s : Symbol}
    (h : bracketing opened s = .ok (closed, opened')) :
    ∃ outer, opened = closed ++ outer ∧ Passes outer s opened' ∧
      (closed = [] ∨ s = .rightBrace ∧ (∀ b ∈ closed, b = .paren) ∨ s.isBoundary = true) := by
  cases s with
  | list name =>
    simp only [bracketing] at h
    split at h
    · cases h
    · next hname =>
      split at h
      · cases h
      · next hbrace =>
        cases h
        have hflat (hmem : .brace ∈ opened) : (Symbol.list name).isList = false :=
          absurd (List.contains_iff_mem.mpr hmem) hbrace
        refine ⟨opened, rfl, .plain rfl rfl rfl hflat ?_, .inl rfl⟩
        rintro n ⟨rfl⟩
        exact hname
  | leftBrace =>
    simp only [bracketing] at h
    split at h
    · cases h
    · next hbrace =>
      cases h
      have hflat (hmem : .brace ∈ opened) : Symbol.leftBrace.isList = false :=
        absurd (List.contains_iff_mem.mpr hmem) hbrace
      exact ⟨opened, rfl, .opens rfl hflat, .inl rfl⟩
  | leftParen =>
    cases h
    exact ⟨opened, rfl, .opens rfl fun _ => rfl, .inl rfl⟩
  | function f =>
    cases h
    exact ⟨opened, rfl, .opens rfl fun _ => rfl, .inl rfl⟩
  | rightParen =>
    simp only [bracketing] at h
    split at h
    · cases h
      exact ⟨_, rfl, .closes rfl, .inl rfl⟩
    · cases h
  | rightBrace =>
    simp only [bracketing] at h
    split at h
    · next houter =>
      cases h
      refine ⟨.brace :: opened', ?_, .closes rfl, .inr (.inl ⟨rfl, fun b hb => ?_⟩)⟩
      · rw [← houter, List.takeWhile_append_dropWhile]
      · simpa using List.mem_takeWhile_imp hb
    · cases h
  | store =>
    cases h
    exact ⟨[], by simp, .boundary rfl, .inr (.inr rfl)⟩
  | separator =>
    cases h
    exact ⟨[], by simp, .boundary rfl, .inr (.inr rfl)⟩
  | _ =>
    cases h
    exact ⟨opened, rfl, .plain rfl rfl rfl (fun _ => rfl) (by simp), .inl rfl⟩

/-- A symbol that passes has its brackets, with nothing to be closed before it. -/
theorem bracketing_of_passes {opened opened' : List Bracket} {s : Symbol}
    (h : Passes opened s opened') : bracketing opened s = .ok ([], opened') := by
  cases h with
  | opens hs hflat => cases s <;> cases hs <;> simp_all [bracketing, Symbol.isList]
  | closes hs => cases s <;> cases hs <;> simp [bracketing]
  | boundary hs => cases s <;> simp_all [bracketing, Symbol.isBoundary]
  | plain hopens hcloses hboundary hflat hname =>
    cases s <;>
      simp_all [bracketing, Symbol.opens?, Symbol.closes?, Symbol.isBoundary, Symbol.isList]

/-- A boundary closes whatever is open. -/
theorem bracketing_boundary {s : Symbol} (hs : s.isBoundary = true) (opened : List Bracket) :
    bracketing opened s = .ok (opened, []) := by
  cases s <;> cases hs <;> rfl

/-- A closing brace closes one more parenthesis. -/
theorem bracketing_rightBrace_cons {opened closed opened' : List Bracket}
    (h : bracketing opened .rightBrace = .ok (closed, opened')) :
    bracketing (.paren :: opened) .rightBrace = .ok (.paren :: closed, opened') := by
  simp only [bracketing] at h ⊢
  split at h
  · next houter =>
    cases h
    simp [houter]
  · cases h

end Token

namespace Symbol

variable {s : Symbol}

private theorem eq_leftBrace (h : s.opens? = some .brace) : s = .leftBrace := by
  cases s <;> cases h
  rfl

private theorem eq_rightBrace (h : s.closes? = some .brace) : s = .rightBrace := by
  cases s <;> cases h
  rfl

/-- A symbol that closes a bracket is its closer. -/
theorem eq_closer {b : Bracket} (h : s.closes? = some b) : s = b.closer := by
  cases s <;> cases h <;> rfl

private theorem closes?_of_opens? {b : Bracket} (h : s.opens? = some b) : s.closes? = none := by
  cases s <;> cases h <;> rfl

/-- An opener is no boundary. -/
theorem isBoundary_of_opens? {b : Bracket} (h : s.opens? = some b) : s.isBoundary = false := by
  cases s <;> cases h <;> rfl

private theorem isList_of_closes? {b : Bracket} (h : s.closes? = some b) : s.isList = false := by
  cases s <;> cases h <;> rfl

/-- A closer is no boundary. -/
theorem isBoundary_of_closes? {b : Bracket} (h : s.closes? = some b) : s.isBoundary = false := by
  cases s <;> cases h <;> rfl

end Symbol

namespace Passes

variable {opened opened' : List Bracket} {s : Symbol} {b : Bracket}

/-- An opener adds its bracket, and opens no list inside a list literal. -/
private theorem of_opens (hs : s.opens? = some b) (h : Passes opened s opened') :
    opened' = b :: opened ∧ (.brace ∈ opened → s.isList = false) := by
  cases h with
  | opens hs' hflat => exact ⟨by simp_all, hflat⟩
  | closes hs' => simp [Symbol.closes?_of_opens? hs] at hs'
  | boundary hs' => simp [Symbol.isBoundary_of_opens? hs] at hs'
  | plain hopens => simp [hs] at hopens

/-- A closer takes its bracket away. -/
theorem of_closes (hs : s.closes? = some b) (h : Passes opened s opened') :
    opened = b :: opened' := by
  cases h with
  | opens hs' => simp [Symbol.closes?_of_opens? hs'] at hs
  | closes hs' => simp_all
  | boundary hs' => simp [Symbol.isBoundary_of_closes? hs] at hs'
  | plain hopens hcloses => simp [hs] at hcloses

/-- Any other symbol leaves the brackets, and is no list inside a list literal. -/
theorem of_plain (hopens : s.opens? = none) (hcloses : s.closes? = none)
    (h : Passes opened s opened') : opened' = opened ∧ (.brace ∈ opened → s.isList = false) := by
  cases h with
  | opens hs => simp [hopens] at hs
  | closes hs => simp [hcloses] at hs
  | boundary => exact ⟨rfl, by simp⟩
  | plain _ _ _ hflat => exact ⟨rfl, hflat⟩

/-- A list variable that passes has a valid name. -/
private theorem of_list {n : String} (h : Passes opened (.list n) opened') :
    Name.checkList n = .ok () := by
  cases h with
  | opens hs => cases hs
  | closes hs => cases hs
  | boundary hs => cases hs
  | plain _ _ _ _ hname => exact hname n rfl

end Passes

/-- A part of flat symbols is flat. -/
private theorem Flat.of_infix {ss ss' : List Symbol} (h : Flat ss') (hss : ss <:+: ss') :
    Flat ss := by
  obtain ⟨front, back, rfl⟩ := hss
  rintro before inner after rfl hinner
  exact h (front ++ before) inner (after ++ back) (by simp) hinner

/-- Symbols of one piece that may stand inside some open brackets. -/
structure Fits (opened : List Bracket) (ss : List Symbol) : Prop where
  boundary : ∀ s ∈ ss, s.isBoundary = false
  flat : Flat ss
  lists : .brace ∈ opened → ∀ s ∈ ss, s.isList = false
  named : ∀ n, .list n ∈ ss → Name.checkList n = .ok ()

/-- A part of fitting symbols fits. -/
private theorem Fits.of_infix {opened : List Bracket} {ss ss' : List Symbol} (h : Fits opened ss')
    (hss : ss <:+: ss') : Fits opened ss where
  boundary s hs := h.boundary s (hss.subset hs)
  flat := h.flat.of_infix hss
  lists hbrace s hs := h.lists hbrace s (hss.subset hs)
  named n hn := h.named n (hss.subset hn)

/-- Reading balanced symbols leaves the open brackets as they are. The induction is on how the
symbols are bracketed; while a brace is open no list may come, and inside a pair one is open if the
pair is braces or if one was open before. -/
theorem Balanced.strict_append {ss : List Symbol} (h : Balanced ss) {opened : List Bracket}
    {rest : List Symbol} (hfits : Fits opened ss) (hrest : Strict opened rest) :
    Strict opened (ss ++ rest) := by
  induction h generalizing opened rest with
  | nil => exact hrest
  | @plain s ss hopens hcloses h ih =>
    have hlist (hbrace : .brace ∈ opened) : s.isList = false := hfits.lists hbrace s (by simp)
    have hname (n : String) (hs : s = .list n) : Name.checkList n = .ok () :=
      hfits.named n (by simp [hs])
    exact .cons (.plain hopens hcloses (hfits.boundary s (by simp)) hlist hname)
      (ih (hfits.of_infix ⟨[s], [], by simp⟩) hrest)
  | @nested b s c inner ss hs hinner hc h ihinner ih =>
    have hlist (hbrace : .brace ∈ opened) : s.isList = false := hfits.lists hbrace s (by simp)
    have hinside : Fits opened inner := hfits.of_infix ⟨[s], c :: ss, by simp⟩
    have hlists (hbrace : .brace ∈ b :: opened) (x : Symbol) (hx : x ∈ inner) :
        x.isList = false := by
      rcases List.mem_cons.mp hbrace with rfl | hbrace
      · rw [Symbol.eq_leftBrace hs, Symbol.eq_rightBrace hc] at hfits
        exact hfits.flat [] inner ss rfl hinner x hx
      · exact hinside.lists hbrace x hx
    have hss : Strict opened (ss ++ rest) :=
      ih (hfits.of_infix ⟨s :: (inner ++ [c]), [], by simp⟩) hrest
    rw [List.cons_append, List.append_assoc, List.cons_append]
    exact .cons (.opens hs hlist)
      (ihinner { hinside with lists := hlists } (.cons (.closes hc) hss))

/-- A list is a piece without boundaries, and what follows begins with a boundary. -/
theorem exists_piece (ss : List Symbol) :
    ∃ piece rest, ss = piece ++ rest ∧ (∀ s ∈ piece, s.isBoundary = false) ∧
      ∀ s ∈ rest.head?, s.isBoundary = true := by
  induction ss with
  | nil => exact ⟨[], [], rfl, by simp, by simp⟩
  | cons s ss ih =>
    by_cases hs : s.isBoundary = true
    · exact ⟨[], s :: ss, rfl, by simp, by simpa using hs⟩
    · obtain ⟨piece, rest, rfl, hpiece, hrest⟩ := ih
      exact ⟨s :: piece, rest, rfl, by simpa [hs] using hpiece, hrest⟩

/-- The machine accepts what is well bracketed and flat, with valid names. -/
theorem strict_of_bracketed {ss : List Symbol}
    (hbracketed : ∀ piece ∈ ss.splitOnP Symbol.isBoundary, Balanced piece) (hflat : Flat ss)
    (hnamed : ∀ n, .list n ∈ ss → Name.checkList n = .ok ()) : Strict [] ss := by
  induction hlength : ss.length using Nat.strongRecOn generalizing ss with
  | ind length ih =>
    obtain ⟨piece, rest, rfl, hpiece, hrest⟩ := exists_piece ss
    have hfits : Fits [] piece :=
      ⟨hpiece, hflat.of_infix ⟨[], rest, rfl⟩, by simp, fun n hn => hnamed n (by simp [hn])⟩
    cases rest with
    | nil =>
      rw [List.append_nil, List.splitOnP_eq_singleton hpiece] at hbracketed
      exact (hbracketed piece (by simp)).strict_append hfits .nil
    | cons s rest =>
      have hs : s.isBoundary = true := hrest s rfl
      rw [List.splitOnP_append_cons_of_forall_mem hpiece s hs rest] at hbracketed
      have hstrict : Strict [] rest := by
        refine ih rest.length ?_ (fun p hp => hbracketed p (by simp [hp]))
          (hflat.of_infix ⟨piece ++ [s], [], by simp⟩) (fun n hn => hnamed n (by simp [hn])) rfl
        simp only [← hlength, List.length_append, List.length_cons]
        omega
      exact (hbracketed piece (by simp)).strict_append hfits (.cons (.boundary hs) hstrict)

/-- What holds of an opener, its closer, and the symbols between and after them. -/
theorem forall_mem_nested {p : Symbol → Prop} {s c : Symbol} {inner ss : List Symbol} (hs : p s)
    (hinner : ∀ x ∈ inner, p x) (hc : p c) (hss : ∀ x ∈ ss, p x) :
    ∀ x ∈ s :: (inner ++ c :: ss), p x := by
  simp only [List.mem_cons, List.mem_append]
  rintro x (rfl | hx | rfl | hx)
  · exact hs
  · exact hinner x hx
  · exact hc
  · exact hss x hx

namespace Strict

/-- The first symbol passes, and the others can be read after it. -/
theorem uncons {opened : List Bracket} {s : Symbol} {ss : List Symbol}
    (h : Strict opened (s :: ss)) : ∃ opened', Passes opened s opened' ∧ Strict opened' ss := by
  cases h with
  | cons hpasses hss => exact ⟨_, hpasses, hss⟩

/-- The innermost open bracket is closed, with balanced symbols before its closer. -/
theorem exists_closer {b : Bracket} {opened : List Bracket} {ss : List Symbol}
    (h : Strict (b :: opened) ss) :
    ∃ inner c rest, ss = inner ++ c :: rest ∧ Balanced inner ∧
      (∀ s ∈ inner, s.isBoundary = false) ∧ c.closes? = some b ∧ Strict opened rest := by
  induction hlength : ss.length using Nat.strongRecOn generalizing b opened ss with
  | ind length ih =>
    obtain ⟨s, ss, rfl⟩ : ∃ s ss', ss = s :: ss' := by
      cases h with
      | cons => exact ⟨_, _, rfl⟩
    obtain ⟨opened', hpasses, hss⟩ := h.uncons
    cases hpasses with
    | closes hs => exact ⟨[], s, ss, rfl, .nil, by simp, hs, hss⟩
    | plain hopens hcloses hboundary =>
      obtain ⟨inner, c, rest, rfl, hinner, hinside, hc, hrest⟩ :=
        ih ss.length (by simp [← hlength]) hss rfl
      exact ⟨s :: inner, c, rest, rfl, .plain hopens hcloses hinner, by simpa [hboundary], hc,
        hrest⟩
    | @opens _ _ b' hs =>
      obtain ⟨inner', c', rest', rfl, hinner', hinside', hc', hrest'⟩ :=
        ih ss.length (by simp [← hlength]) hss rfl
      obtain ⟨inner, c, rest, rfl, hinner, hinside, hc, hrest⟩ :=
        ih rest'.length (by simp [← hlength]; omega) hrest' rfl
      have hall := forall_mem_nested (Symbol.isBoundary_of_opens? hs) hinside'
        (Symbol.isBoundary_of_closes? hc') hinside
      exact ⟨s :: (inner' ++ c' :: inner), c, rest, by simp, .nested hs hinner' hc' hinner, hall,
        hc, hrest⟩

/-- With no bracket open, a balanced piece is read up to the next boundary. -/
theorem exists_piece {ss : List Symbol} (h : Strict [] ss) :
    ∃ piece rest, ss = piece ++ rest ∧ Balanced piece ∧ (∀ s ∈ piece, s.isBoundary = false) ∧
      (∀ s ∈ rest.head?, s.isBoundary = true) ∧ Strict [] rest := by
  induction hlength : ss.length using Nat.strongRecOn generalizing ss with
  | ind length ih =>
    cases h with
    | nil => exact ⟨[], [], rfl, .nil, by simp, by simp, .nil⟩
    | @cons _ opened' s ss hpasses hss =>
      cases hpasses with
      | boundary hs => exact ⟨[], s :: ss, rfl, .nil, by simp, by simpa, .cons (.boundary hs) hss⟩
      | plain hopens hcloses hboundary =>
        obtain ⟨piece, rest, rfl, hpiece, hinside, hrest⟩ :=
          ih ss.length (by simp [← hlength]) hss rfl
        exact ⟨s :: piece, rest, rfl, .plain hopens hcloses hpiece, by simpa [hboundary], hrest⟩
      | opens hs =>
        obtain ⟨inner, c, rest', rfl, hinner, hinside', hc, hrest'⟩ := hss.exists_closer
        obtain ⟨piece, rest, rfl, hpiece, hinside, hrest⟩ :=
          ih rest'.length (by simp [← hlength]; omega) hrest' rfl
        have hall := forall_mem_nested (Symbol.isBoundary_of_opens? hs) hinside'
          (Symbol.isBoundary_of_closes? hc) hinside
        exact ⟨s :: (inner ++ c :: piece), rest, by simp, .nested hs hinner hc hpiece, hall, hrest⟩

/-- The pieces between boundaries are balanced. -/
private theorem bracketed {ss : List Symbol} (h : Strict [] ss) :
    ∀ piece ∈ ss.splitOnP Symbol.isBoundary, Balanced piece := by
  induction hlength : ss.length using Nat.strongRecOn generalizing ss with
  | ind length ih =>
    obtain ⟨piece, rest, rfl, hpiece, hinside, hboundary, hrest⟩ := h.exists_piece
    cases hrest with
    | nil =>
      rw [List.append_nil, List.splitOnP_eq_singleton hinside]
      simpa using hpiece
    | @cons _ opened' s rest hpasses hrest =>
      have hs : s.isBoundary = true := hboundary s rfl
      cases hpasses with
      | boundary =>
        rw [List.splitOnP_append_cons_of_forall_mem hinside s hs rest]
        have hpieces := ih rest.length (by simp [← hlength]; omega) hrest rfl
        simpa [hpiece] using hpieces
      | opens hs' => simp [Symbol.isBoundary_of_opens? hs'] at hs
      | plain _ _ hs' => simp [hs'] at hs

/-- While a brace is open, balanced symbols hold no list. -/
theorem no_lists {inner : List Symbol} (hinner : Balanced inner) {opened : List Bracket}
    {rest : List Symbol} (hbrace : .brace ∈ opened) (h : Strict opened (inner ++ rest)) :
    (∀ s ∈ inner, s.isList = false) ∧ Strict opened rest := by
  induction hinner generalizing opened rest with
  | nil => exact ⟨by simp, h⟩
  | @plain s ss hopens hcloses hss ih =>
    obtain ⟨_, hpasses, htail⟩ := h.uncons
    obtain ⟨rfl, hlist⟩ := hpasses.of_plain hopens hcloses
    obtain ⟨hlists, hrest⟩ := ih hbrace htail
    exact ⟨by simpa [hlist hbrace] using hlists, hrest⟩
  | @nested b s c inner ss hs hinner hc hss ihinner ih =>
    rw [List.cons_append, List.append_assoc, List.cons_append] at h
    obtain ⟨_, hpasses, h⟩ := h.uncons
    obtain ⟨rfl, hlist⟩ := hpasses.of_opens hs
    obtain ⟨hlists, h⟩ := ihinner (List.mem_cons_of_mem _ hbrace) h
    obtain ⟨_, hpasses, h⟩ := h.uncons
    cases hpasses.of_closes hc
    obtain ⟨hlists', hrest⟩ := ih hbrace h
    exact ⟨forall_mem_nested (hlist hbrace) hlists (Symbol.isList_of_closes? hc) hlists', hrest⟩

/-- Symbols at the end can be read with some open brackets. -/
private theorem drop {opened : List Bracket} {before ss : List Symbol}
    (h : Strict opened (before ++ ss)) : ∃ opened', Strict opened' ss := by
  induction before generalizing opened with
  | nil => exact ⟨opened, h⟩
  | cons s before ih =>
    obtain ⟨_, -, h⟩ := h.uncons
    exact ih h

/-- Symbols that can be read are flat. -/
theorem flat {opened : List Bracket} {ss : List Symbol} (h : Strict opened ss) : Flat ss := by
  rintro before inner after rfl hinner
  obtain ⟨opened', h⟩ := h.drop
  obtain ⟨_, hpasses, h⟩ := h.uncons
  obtain ⟨rfl, -⟩ := hpasses.of_opens rfl
  exact (no_lists hinner (by simp) h).1

/-- The lists among them have valid names. -/
theorem named {opened : List Bracket} {ss : List Symbol} (h : Strict opened ss) (n : String)
    (hn : .list n ∈ ss) : Name.checkList n = .ok () := by
  induction h with
  | nil => cases hn
  | cons hpasses hss ih =>
    rcases List.mem_cons.mp hn with rfl | hn
    · exact hpasses.of_list
    · exact ih hn

end Strict

/-- A list is normal if and only if the machine accepts it and its products are written out. -/
theorem normal_iff_strict {ss : List Symbol} :
    Normal ss ↔ Strict [] ss ∧ ss.IsChain fun a b => Token.impliesProduct a b = false := by
  constructor
  · intro h
    exact ⟨strict_of_bracketed h.bracketed h.flat h.named, h.products⟩
  · rintro ⟨h, hproducts⟩
    exact ⟨h.bracketed, h.flat, h.named, hproducts⟩

end Handheld
