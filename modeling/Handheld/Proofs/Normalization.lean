import Handheld.Fault
import Handheld.Proofs.Brackets

/-!
# Normalization

Normalization inverts a deletion: a token list is normalized to `out` if and only if `out` is normal
and the list is `out` without some of the signs that can be understood. These are multiplication
signs, closing parentheses before a closing brace, and closers before a boundary or the end.
-/

namespace Handheld

namespace Token

/-- The symbols of some tokens. -/
abbrev symbols (ts : List Token) : List Symbol := ts.map symbol

theorem symbols_cons (t : Token) (ts : List Token) :
    symbols (t :: ts) = t.symbol :: symbols ts := rfl

theorem symbols_append (ts us : List Token) : symbols (ts ++ us) = symbols ts ++ symbols us :=
  List.map_append

/-- A boundary comes next, or nothing. -/
def AtBoundary (ts : List Token) : Prop := ∀ t ∈ ts.head?, t.symbol.isBoundary = true

/-- A closing brace comes, after closing parentheses only. -/
def BeforeBrace (ts : List Token) : Prop :=
  ∃ ps c rest, ts = ps ++ c :: rest ∧ (∀ p ∈ ps, p.symbol = .rightParen) ∧ c.symbol = .rightBrace

/-- The second list is the first without some of the signs that can be understood. -/
inductive Thins : List Token → List Token → Prop
  | nil : Thins [] []
  | keep {out ts : List Token} (t : Token) (h : Thins out ts) : Thins (t :: out) (t :: ts)
  /-- A multiplication sign is left out between a value and a value. -/
  | product {a m b : Token} {out ts : List Token} (hm : m.symbol = .binary .multiply)
      (hab : impliesProduct a.symbol b.symbol = true) (h : Thins (b :: out) ts) :
      Thins (a :: m :: b :: out) (a :: ts)
  /-- A closing parenthesis is left out of the run before a closing brace. -/
  | paren {p : Token} {out ts : List Token} (hp : p.symbol = .rightParen) (hout : BeforeBrace out)
      (h : Thins out ts) : Thins (p :: out) ts
  /-- The last part of the run of closers before a boundary or the end is left out. -/
  | tail {cs rest ts : List Token} (hcs : ∀ c ∈ cs, c.symbol.closes?.isSome = true)
      (hrest : AtBoundary rest) (h : Thins rest ts) : Thins (cs ++ rest) ts

/-- Nothing has to be left out. -/
theorem Thins.refl (ts : List Token) : Thins ts ts := by
  induction ts with
  | nil => exact .nil
  | cons t ts ih => exact .keep t ih

/-- Tokens at the front can be kept. -/
private theorem Thins.keepAll (as : List Token) {out ts : List Token} (h : Thins out ts) :
    Thins (as ++ out) (as ++ ts) := by
  induction as with
  | nil => exact h
  | cons a as ih => exact .keep a ih

/-- What is left stands in its order, and unaltered. -/
theorem Thins.sublist {out ts : List Token} (h : Thins out ts) : ts.Sublist out := by
  induction h with
  | nil => exact .slnil
  | keep t _ ih => exact ih.cons_cons t
  | @product a m _ _ _ _ _ _ ih => exact (ih.cons m).cons_cons a
  | @paren p _ _ _ _ _ ih => exact ih.cons p
  | @tail cs rest _ _ _ _ ih => exact ih.trans (List.sublist_append_right cs rest)

/-- The product sign that is understood before a token. -/
def productBefore (last : Option Token) (t : Token) : List Token :=
  if last.any (impliesProduct ·.symbol t.symbol) then [⟨.binary .multiply, t.position⟩] else []

section Steps

variable {last : Option Token} {l t : Token} {opened : List Bracket} {ts out : List Token}

/-- How a first token is normalized: its brackets are known, and the product and the closers that
are understood stand before it. -/
theorem normalizeFrom_cons_iff :
    normalizeFrom last opened (t :: ts) = .ok out ↔
      ∃ closed opened' rest, bracketing opened t.symbol = .ok (closed, opened') ∧
        normalizeFrom (some t) opened' ts = .ok rest ∧
        out = productBefore last t ++ closers closed t.position ++ t :: rest := by
  rw [normalizeFrom]
  constructor
  · intro h
    split at h
    · cases h
    · next closed opened' hb =>
      split at h
      · cases h
      · next rest hrest =>
        cases h
        exact ⟨closed, opened', rest, hb, hrest, rfl⟩
  · rintro ⟨closed, opened', rest, hb, hrest, rfl⟩
    simp only [hb, hrest]
    rfl

/-- No product is understood before a symbol that starts no value. -/
theorem productBefore_of_not_starts (ht : t.symbol.startsValue = false) :
    productBefore last t = [] := by
  unfold productBefore
  cases last <;> simp [impliesProduct, ht]

theorem symbols_closers (bs : List Bracket) (p : Position) :
    symbols (closers bs p) = bs.map Bracket.closer := by
  simp [symbols, closers]

/-- A closer starts no value. -/
private theorem startsValue_closer (b : Bracket) : b.closer.startsValue = false := by
  cases b <;> rfl

/-- A boundary starts no value. -/
private theorem startsValue_of_isBoundary {s : Symbol} (h : s.isBoundary = true) :
    s.startsValue = false := by
  cases s <;> cases h <;> rfl

/-- Where a symbol closes brackets by itself, no product is understood before it. -/
theorem closed_or_not_starts {s : Symbol} {closed opened' : List Bracket}
    (h : bracketing opened s = .ok (closed, opened')) : closed = [] ∨ s.startsValue = false := by
  obtain ⟨-, -, -, hclosed | ⟨rfl, -⟩ | hs⟩ := passes_of_bracketing h
  · exact .inl hclosed
  · exact .inr rfl
  · exact .inr (startsValue_of_isBoundary hs)

end Steps

/-- Closers close the brackets they belong to. -/
private theorem strict_closers (closed : List Bracket) {outer : List Bracket} {ss : List Symbol}
    (h : Strict outer ss) :
    Strict (closed ++ outer) (closed.map Bracket.closer ++ ss) := by
  induction closed with
  | nil => exact h
  | cons b closed ih => exact .cons (.closes (by cases b <;> rfl)) ih

/-- Normalized tokens close all brackets that were open. -/
private theorem strict_normalizeFrom {ts out : List Token} {last : Option Token}
    {opened : List Bracket}
    (h : normalizeFrom last opened ts = .ok out) (hlast : last = none → opened = []) :
    Strict opened (symbols out) := by
  induction ts generalizing last opened out with
  | nil =>
    cases last with
    | none =>
      cases h
      rw [hlast rfl]
      exact .nil
    | some l =>
      cases h
      have hclosers := strict_closers opened .nil
      rwa [List.append_nil, List.append_nil, ← symbols_closers] at hclosers
  | cons t ts ih =>
    obtain ⟨closed, opened', rest, hb, hrest, rfl⟩ := normalizeFrom_cons_iff.mp h
    obtain ⟨outer, rfl, hpasses, -⟩ := passes_of_bracketing hb
    have hstrict : Strict (closed ++ outer)
        (closed.map Bracket.closer ++ t.symbol :: symbols rest) :=
      strict_closers closed (.cons hpasses (ih hrest (by simp)))
    rw [← symbols_closers closed t.position] at hstrict
    unfold productBefore
    split
    · rw [symbols_append, symbols_append, List.append_assoc]
      exact .cons (.plain rfl rfl rfl (fun _ => rfl) (by simp)) hstrict
    · simpa [symbols] using hstrict

/-- No product is left to be understood. -/
abbrev Products (ss : List Symbol) : Prop := ss.IsChain fun a b => impliesProduct a b = false

/-- No product is understood before a symbol that starts no value, whatever stands before it. -/
private theorem impliesProduct_of_not_starts {b : Symbol} (hb : b.startsValue = false)
    (a : Symbol) : impliesProduct a b = false := by
  simp [impliesProduct, hb]

/-- Closers may stand before anything that starts no value. -/
theorem products_closers {ss : List Symbol} (h : Products ss)
    (hss : ∀ s ∈ ss.head?, s.startsValue = false) (bs : List Bracket) :
    Products (bs.map Bracket.closer ++ ss) ∧
      ∀ s ∈ (bs.map Bracket.closer ++ ss).head?, s.startsValue = false := by
  induction bs with
  | nil => exact ⟨h, hss⟩
  | cons b bs ih =>
    refine ⟨ih.1.cons fun s hs => impliesProduct_of_not_starts (ih.2 s hs) _, ?_⟩
    intro s hs
    cases hs
    exact startsValue_closer b

/-- The result leaves no product to be understood, and none after the last token. -/
theorem products_normalizeFrom {ts out : List Token} {last : Option Token} {opened : List Bracket}
    (h : normalizeFrom last opened ts = .ok out) :
    Products (symbols out) ∧
      ∀ l ∈ last, ∀ s ∈ (symbols out).head?, impliesProduct l.symbol s = false := by
  induction ts generalizing last opened out with
  | nil =>
    cases last with
    | none =>
      cases h
      exact ⟨.nil, by simp⟩
    | some l =>
      cases h
      obtain ⟨hproducts, hhead⟩ := products_closers .nil (by simp) opened
      rw [List.append_nil, ← symbols_closers opened l.position] at hproducts hhead
      exact ⟨hproducts, fun _ _ s hs => impliesProduct_of_not_starts (hhead s hs) _⟩
  | cons t ts ih =>
    obtain ⟨closed, opened', rest, hb, hrest, rfl⟩ := normalizeFrom_cons_iff.mp h
    have htail : Products (t.symbol :: symbols rest) := (ih hrest).1.cons ((ih hrest).2 t rfl)
    rcases closed_or_not_starts hb with rfl | ht
    · by_cases hproduct : last.any (impliesProduct ·.symbol t.symbol) = true
      · simp only [productBefore, hproduct, closers, symbols]
        refine ⟨htail.cons fun _ _ => rfl, fun l hl s hs => ?_⟩
        cases hs
        exact impliesProduct_of_not_starts rfl _
      · simp only [productBefore, hproduct, closers, symbols]
        refine ⟨htail, fun l hl s hs => ?_⟩
        cases hl
        cases hs
        simpa using hproduct
    · obtain ⟨hproducts, hhead⟩ := products_closers htail (by simpa using ht) closed
      rw [← symbols_closers closed t.position] at hproducts hhead
      rw [productBefore_of_not_starts ht, List.nil_append, symbols_append]
      exact ⟨hproducts, fun _ _ s hs => impliesProduct_of_not_starts (hhead s hs) _⟩

/-- Parentheses before a closing brace can be left out. -/
private theorem thins_parens {closed : List Bracket} {t : Token} {out ts : List Token}
    (p : Position) (hclosed : ∀ b ∈ closed, b = .paren) (ht : t.symbol = .rightBrace)
    (h : Thins (t :: out) ts) : Thins (closers closed p ++ t :: out) ts := by
  induction closed with
  | nil => exact h
  | cons b closed ih =>
    have hsymbols : ∀ c ∈ closers closed p, c.symbol = .rightParen := by
      intro c hc
      obtain ⟨b, hb, rfl⟩ := List.mem_map.mp hc
      rw [hclosed b (by simp [hb])]
      rfl
    refine .paren ?_ ⟨closers closed p, t, out, rfl, hsymbols, ht⟩
      (ih fun b hb => hclosed b (by simp [hb]))
    rw [hclosed b (by simp)]
    rfl

private theorem closes?_closers {bs : List Bracket} {p : Position} {c : Token}
    (hc : c ∈ closers bs p) : c.symbol.closes?.isSome = true := by
  obtain ⟨b, -, rfl⟩ := List.mem_map.mp hc
  cases b <;> rfl

/-- Only what can be understood was added: a product before the token or closers, never both. The
token before is part of the statement, since a product is understood after it. -/
theorem thins_normalizeFrom {ts out : List Token} {last : Option Token} {opened : List Bracket}
    (h : normalizeFrom last opened ts = .ok out) :
    Thins (last.toList ++ out) (last.toList ++ ts) := by
  induction ts generalizing last opened out with
  | nil =>
    cases last with
    | none =>
      cases h
      exact .nil
    | some l =>
      cases h
      have hclosers : Thins (closers opened l.position ++ []) [] :=
        .tail (fun c => closes?_closers) (by simp [AtBoundary]) .nil
      rw [List.append_nil] at hclosers
      exact .keep l hclosers
  | cons t ts ih =>
    obtain ⟨closed, opened', rest, hb, hrest, rfl⟩ := normalizeFrom_cons_iff.mp h
    have htail : Thins (t :: rest) (t :: ts) := ih hrest
    obtain ⟨-, -, -, rfl | ⟨ht, hclosed⟩ | ht⟩ := passes_of_bracketing hb
    · cases last with
      | none => exact htail
      | some l =>
        by_cases hproduct : impliesProduct l.symbol t.symbol = true
        · simpa [productBefore, hproduct, closers] using Thins.product rfl hproduct htail
        · simpa [productBefore, hproduct, closers] using Thins.keep l htail
    · rw [productBefore_of_not_starts (by rw [ht]; rfl)]
      exact .keepAll _ (thins_parens t.position hclosed ht htail)
    · rw [productBefore_of_not_starts (startsValue_of_isBoundary ht)]
      exact .keepAll _ (.tail (fun c => closes?_closers) (by simpa [AtBoundary] using ht) htail)

/-- Closing parentheses, and then a closing brace, a boundary or nothing. -/
inductive Closing : List Token → Prop
  | last {ts : List Token}
      (h : ∀ t ∈ ts.head?, t.symbol.isBoundary = true ∨ t.symbol = .rightBrace) : Closing ts
  | paren {t : Token} {ts : List Token} (ht : t.symbol = .rightParen) (h : Closing ts) :
      Closing (t :: ts)

private theorem BeforeBrace.closing {ts : List Token} (h : BeforeBrace ts) : Closing ts := by
  obtain ⟨ps, c, rest, rfl, hps, hc⟩ := h
  induction ps with
  | nil => exact .last (by simp [hc])
  | cons p ps ih => exact .paren (hps p (by simp)) (ih fun q hq => hps q (by simp [hq]))

namespace Thins

variable {out ts : List Token}

/-- A boundary that comes next is not left out. -/
private theorem atBoundary (h : Thins out ts) (hout : AtBoundary out) : AtBoundary ts := by
  induction h with
  | nil => exact hout
  | keep => exact hout
  | product => exact hout
  | @paren p out _ hp =>
    have hboundary : p.symbol.isBoundary = true := hout p rfl
    rw [hp] at hboundary
    cases hboundary
  | tail _ hrest _ ih => exact ih hrest

/-- Where closers lead to a brace, a boundary or the end, they still do so when some are left
out. -/
private theorem closing (h : Thins out ts) (hout : Closing out) : Closing ts := by
  induction h with
  | nil => exact hout
  | keep t h ih =>
    cases hout with
    | last hlast => exact .last hlast
    | paren ht hout => exact .paren ht (ih hout)
  | @product a m b out ts hm hab h ih =>
    cases hout with
    | last hlast => exact .last hlast
    | paren ht hout =>
      cases hout with
      | last hlast => simpa [hm, Symbol.isBoundary] using hlast m rfl
      | paren ht => simp [hm] at ht
  | paren _ hbefore _ ih => exact ih hbefore.closing
  | tail _ hrest _ ih => exact ih (.last fun t ht => .inl (hrest t ht))

end Thins

/-- One more open parenthesis is closed where the closers stand. -/
theorem normalizeFrom_paren {ts out : List Token} {l : Token} {opened : List Bracket}
    (hts : Closing ts) (h : normalizeFrom (some l) opened ts = .ok out) :
    ∃ out', normalizeFrom (some l) (.paren :: opened) ts = .ok out' ∧
      symbols out' = .rightParen :: symbols out := by
  induction hts generalizing l opened out with
  | @last ts hlast =>
    cases ts with
    | nil =>
      cases h
      exact ⟨_, rfl, rfl⟩
    | cons t ts =>
      obtain ⟨closed, opened', rest, hb, hrest, rfl⟩ := normalizeFrom_cons_iff.mp h
      rcases hlast t rfl with ht | ht
      · have hproduct : productBefore (some l) t = [] :=
          productBefore_of_not_starts (startsValue_of_isBoundary ht)
        rw [bracketing_boundary ht] at hb
        cases hb
        refine ⟨_, normalizeFrom_cons_iff.mpr
          ⟨_, _, rest, bracketing_boundary ht _, hrest, rfl⟩, ?_⟩
        simp [hproduct, closers, Bracket.closer]
      · have hproduct : productBefore (some l) t = [] :=
          productBefore_of_not_starts (by rw [ht]; rfl)
        rw [ht] at hb
        have hb' := bracketing_rightBrace_cons hb
        rw [← ht] at hb'
        refine ⟨_, normalizeFrom_cons_iff.mpr ⟨_, _, rest, hb', hrest, rfl⟩, ?_⟩
        simp [hproduct, closers, Bracket.closer]
  | @paren t ts ht hts ih =>
    obtain ⟨closed, opened', rest, hb, hrest, rfl⟩ := normalizeFrom_cons_iff.mp h
    have hproduct : productBefore (some l) t = [] := productBefore_of_not_starts (by rw [ht]; rfl)
    obtain ⟨outer, rfl, hpasses, hclosed⟩ := passes_of_bracketing hb
    have hclosed : closed = [] := by simpa [ht, Symbol.isBoundary] using hclosed
    obtain rfl : outer = .paren :: opened' := hpasses.of_closes (by rw [ht]; rfl)
    obtain ⟨rest', hrest', hsymbols⟩ := ih hrest
    have hb' : bracketing (.paren :: .paren :: opened') t.symbol = .ok ([], .paren :: opened') :=
      bracketing_of_passes (.closes (by rw [ht]; rfl))
    rw [hclosed]
    refine ⟨_, normalizeFrom_cons_iff.mpr ⟨_, _, rest', hb', hrest', rfl⟩, ?_⟩
    simp [hproduct, closers, hsymbols, ht]

/-- Before a boundary and at the end, everything that is open is closed. -/
theorem normalizeFrom_closers {ts out : List Token} {l : Token} (hts : AtBoundary ts)
    (h : normalizeFrom (some l) [] ts = .ok out) (opened : List Bracket) :
    ∃ out', normalizeFrom (some l) opened ts = .ok out' ∧
      symbols out' = opened.map Bracket.closer ++ symbols out := by
  cases ts with
  | nil =>
    cases h
    exact ⟨_, rfl, by simp [closers]⟩
  | cons t ts =>
    have ht : t.symbol.isBoundary = true := hts t rfl
    have hproduct : productBefore (some l) t = [] :=
      productBefore_of_not_starts (startsValue_of_isBoundary ht)
    obtain ⟨closed, opened', rest, hb, hrest, rfl⟩ := normalizeFrom_cons_iff.mp h
    rw [bracketing_boundary ht] at hb
    cases hb
    refine ⟨_, normalizeFrom_cons_iff.mpr
      ⟨_, _, rest, bracketing_boundary ht opened, hrest, rfl⟩, ?_⟩
    simp [hproduct, closers]

/-- The closers before a boundary are those of the open brackets. -/
theorem closers_of_strict {cs rest : List Token} {opened : List Bracket}
    (hcs : ∀ c ∈ cs, c.symbol.closes?.isSome = true) (hrest : AtBoundary rest)
    (h : Strict opened (symbols (cs ++ rest))) :
    opened.map Bracket.closer = symbols cs ∧ Strict [] (symbols rest) := by
  induction cs generalizing opened with
  | nil =>
    cases rest with
    | nil =>
      cases h
      exact ⟨rfl, .nil⟩
    | cons t rest =>
      have ht : t.symbol.isBoundary = true := hrest t rfl
      obtain ⟨opened', hpasses, -⟩ := h.uncons
      cases hpasses with
      | opens hs => simp [Symbol.isBoundary_of_opens? hs] at ht
      | closes hs => simp [Symbol.isBoundary_of_closes? hs] at ht
      | boundary => exact ⟨rfl, h⟩
      | plain _ _ hs => simp [hs] at ht
  | cons c cs ih =>
    obtain ⟨b, hb⟩ := Option.isSome_iff_exists.mp (hcs c (by simp))
    obtain ⟨opened', hpasses, htail⟩ := h.uncons
    cases hpasses.of_closes hb
    obtain ⟨hclosers, hstrict⟩ := ih (fun d hd => hcs d (by simp [hd])) htail
    refine ⟨?_, hstrict⟩
    rw [symbols_cons, List.map_cons, hclosers, Symbol.eq_closer hb]

/-- The product sign that is understood before some tokens. -/
def glue : Option Token → List Token → List Symbol
  | some l, t :: _ => if impliesProduct l.symbol t.symbol then [.binary .multiply] else []
  | _, _ => []

/-- No product is understood before tokens that start no value. -/
private theorem glue_of_not_starts {last : Option Token} {ts : List Token}
    (h : ∀ t ∈ ts.head?, t.symbol.startsValue = false) : glue last ts = [] := by
  unfold glue
  split
  · next l t ts => rw [impliesProduct_of_not_starts (h t rfl)]; rfl
  · rfl

private theorem symbols_productBefore (last : Option Token) (t : Token) (ts : List Token) :
    symbols (productBefore last t) = glue last (t :: ts) := by
  cases last with
  | none => rfl
  | some l => simp only [productBefore, glue, Option.any_some]; split <;> rfl

/-- Before a closing brace no value starts. -/
private theorem BeforeBrace.not_starts {ts : List Token} (h : BeforeBrace ts) :
    ∀ t ∈ ts.head?, t.symbol.startsValue = false := by
  obtain ⟨ps, c, rest, rfl, hps, hc⟩ := h
  intro t ht
  cases ps with
  | nil =>
    cases ht
    rw [hc]
    rfl
  | cons p ps =>
    cases ht
    rw [hps t (by simp)]
    rfl

/-- No value starts where closers stand before a boundary. -/
private theorem not_starts_of_closers {cs rest : List Token}
    (hcs : ∀ c ∈ cs, c.symbol.closes?.isSome = true) (hrest : AtBoundary rest) :
    ∀ t ∈ (cs ++ rest).head?, t.symbol.startsValue = false := by
  intro t ht
  cases cs with
  | nil => exact startsValue_of_isBoundary (hrest t ht)
  | cons c cs =>
    cases ht
    obtain ⟨b, hb⟩ := Option.isSome_iff_exists.mp (hcs t (by simp))
    rw [Symbol.eq_closer hb]
    exact startsValue_closer b

/-- Tokens that a normal list thins to are normalized to that list. The induction is on what was
left out; the product sign before the list is the one thing that the list itself does not show, and
a closer that was left out has an open bracket, so a token, before it. -/
theorem normalizeFrom_of_thins {out ts : List Token} (h : Thins out ts) {last : Option Token}
    {opened : List Bracket} (hstrict : Strict opened (symbols out))
    (hproducts : Products (symbols out)) (hlast : last = none → opened = []) :
    ∃ out', normalizeFrom last opened ts = .ok out' ∧
      symbols out' = glue last out ++ symbols out := by
  induction h generalizing last opened with
  | nil =>
    cases hstrict
    cases last <;> exact ⟨[], rfl, rfl⟩
  | @keep out ts t h ih =>
    obtain ⟨opened', hpasses, htail⟩ := hstrict.uncons
    obtain ⟨rest, hrest, hsymbols⟩ := @ih (some t) _ htail hproducts.tail (by simp)
    have hglue : glue (some t) out = [] := by
      cases out with
      | nil => rfl
      | cons u out => simp [glue, (List.isChain_cons_cons.mp hproducts).1]
    refine ⟨_, normalizeFrom_cons_iff.mpr
      ⟨[], opened', rest, bracketing_of_passes hpasses, hrest, rfl⟩, ?_⟩
    rw [hglue] at hsymbols
    rw [← symbols_productBefore last t out]
    simpa [closers] using hsymbols
  | @product a m b out ts hm hab h ih =>
    obtain ⟨opened', hpasses, htail⟩ := hstrict.uncons
    obtain ⟨opened'', hpasses', htail'⟩ := htail.uncons
    obtain ⟨rfl, -⟩ := hpasses'.of_plain (by rw [hm]; rfl) (by rw [hm]; rfl)
    obtain ⟨rest, hrest, hsymbols⟩ := @ih (some a) _ htail' hproducts.tail.tail (by simp)
    refine ⟨_, normalizeFrom_cons_iff.mpr
      ⟨[], _, rest, bracketing_of_passes hpasses, hrest, rfl⟩, ?_⟩
    rw [← symbols_productBefore last a (m :: b :: out)]
    simpa [closers, glue, hab, hm] using hsymbols
  | @paren p out ts hp hbefore h ih =>
    obtain ⟨opened', hpasses, htail⟩ := hstrict.uncons
    cases hpasses.of_closes (by rw [hp]; rfl)
    obtain ⟨l, rfl⟩ : ∃ l, last = some l := by
      cases last with
      | none => cases hlast rfl
      | some l => exact ⟨l, rfl⟩
    obtain ⟨rest, hrest, hsymbols⟩ := @ih (some l) _ htail hproducts.tail (by simp)
    obtain ⟨out', hout', hsymbols'⟩ := normalizeFrom_paren (h.closing hbefore.closing) hrest
    have hglue : glue (some l) (p :: out) = [] := by
      rw [glue, impliesProduct_of_not_starts (by rw [hp]; rfl)]
      rfl
    refine ⟨out', hout', ?_⟩
    rw [hsymbols', hsymbols, glue_of_not_starts hbefore.not_starts, hglue, symbols_cons, hp]
    rfl
  | @tail cs rest ts hcs hboundary h ih =>
    obtain ⟨hclosers, htail⟩ := closers_of_strict hcs hboundary hstrict
    have hproducts : Products (symbols rest) := by
      rw [symbols_append] at hproducts
      exact hproducts.right_of_append
    obtain ⟨out', hout', hsymbols⟩ := @ih last _ htail hproducts (by simp)
    have hhead : glue last rest = [] :=
      glue_of_not_starts fun t ht => startsValue_of_isBoundary (hboundary t ht)
    rw [hhead] at hsymbols
    rw [glue_of_not_starts (not_starts_of_closers hcs hboundary), symbols_append, ← hclosers]
    cases last with
    | none =>
      cases hlast rfl
      exact ⟨out', hout', hsymbols⟩
    | some l =>
      obtain ⟨out'', hout'', hsymbols'⟩ :=
        normalizeFrom_closers (h.atBoundary hboundary) hout' opened
      exact ⟨out'', hout'', by rw [hsymbols', hsymbols]; rfl⟩

/-- The result is normal, and only what can be understood was added. -/
theorem normal_of_normalize {ts out : List Token} (h : normalize ts = .ok out) :
    Normal (symbols out) ∧ Thins out ts :=
  ⟨normal_iff_strict.mpr ⟨strict_normalizeFrom h fun _ => rfl, (products_normalizeFrom h).1⟩,
    thins_normalizeFrom h⟩

/-- A normal list is the result for every list that it thins to. -/
theorem normalize_of_thins {ts out : List Token} (hnormal : Normal (symbols out))
    (h : Thins out ts) : ∃ out', normalize ts = .ok out' ∧ symbols out' = symbols out := by
  obtain ⟨hstrict, hproducts⟩ := normal_iff_strict.mp hnormal
  exact normalizeFrom_of_thins h hstrict hproducts fun _ => rfl

/-- Normalization succeeds exactly on what a normal list thins to, and returns that list up to the
places of the tokens it adds: nothing is dropped, moved or altered. Everything else is refused as
not normalizable, and writing out some of the tokens that would be added changes nothing. -/
theorem normalize_ok_iff_thins (ts : List Token) :
    (∀ ss, (∃ out, normalize ts = .ok out ∧ symbols out = ss) ↔
      Normal ss ∧ ∃ out, symbols out = ss ∧ Thins out ts) ∧
    (∀ out, normalize ts = .ok out → Thins out ts ∧ ts.Sublist out) ∧
    ((∃ f, normalize ts = .error f ∧ (Fault.normal f).reason = .normalization) ↔
      ¬ ∃ out, Normal (symbols out) ∧ Thins out ts) ∧
    (∀ out ts', normalize ts = .ok out → Thins out ts' →
      ∃ out', normalize ts' = .ok out' ∧ symbols out' = symbols out) := by
  refine ⟨fun ss => ⟨?_, ?_⟩, fun out h => ?_, ⟨?_, fun hnone => ?_⟩,
    fun out ts' h => normalize_of_thins (normal_of_normalize h).1⟩
  · rintro ⟨out, h, rfl⟩
    obtain ⟨hnormal, hthins⟩ := normal_of_normalize h
    exact ⟨hnormal, out, rfl, hthins⟩
  · rintro ⟨hnormal, out, rfl, hthins⟩
    exact normalize_of_thins hnormal hthins
  · obtain ⟨-, hthins⟩ := normal_of_normalize h
    exact ⟨hthins, hthins.sublist⟩
  · rintro ⟨f, hf, -⟩ ⟨out, hnormal, hthins⟩
    obtain ⟨out', h, -⟩ := normalize_of_thins hnormal hthins
    rw [hf] at h
    cases h
  · cases h : normalize ts with
    | ok out => exact absurd ⟨out, normal_of_normalize h⟩ hnone
    | error f => exact ⟨f, rfl, rfl⟩

end Token

end Handheld
