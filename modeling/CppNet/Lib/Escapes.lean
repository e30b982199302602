import Mathlib.Data.List.Basic

/-!
# Strings with escapes

One symbol begins an escape, of which it and the next two symbols are the text;
every other symbol is a text by itself. A `Grammar` says which symbols may stand
for themselves and which pairs may follow the escape symbol, and a string it
accepts is the text of a list of its tokens.

Since the escape symbol never stands for itself, what the first symbols of a string
can be is decided by looking at the first one (`accepts_cons_iff`,
`accepts_escape_iff`).
-/

namespace Escapes

variable {α : Type*}

structure Grammar (α : Type*) where
  esc : α
  plain : α → Bool
  pair : α → α → Bool
  plain_esc : plain esc = false

inductive Grammar.Token (G : Grammar α)
  | plain (ch : α) (h : G.plain ch = true)
  | escape (high low : α) (h : G.pair high low = true)

variable {G : Grammar α}

namespace Grammar

def Token.text : G.Token → List α
  | .plain ch _ => [ch]
  | .escape high low _ => [G.esc, high, low]

/-- The texts of the tokens, one after the other. -/
def text (ts : List G.Token) : List α := ts.flatMap Token.text

@[simp] theorem text_nil : text ([] : List G.Token) = [] := rfl

theorem text_cons (t : G.Token) (ts : List G.Token) : text (t :: ts) = t.text ++ text ts :=
  List.flatMap_cons

theorem text_append (ts us : List G.Token) : text (ts ++ us) = text ts ++ text us :=
  List.flatMap_append

def Accepts (G : Grammar α) (s : List α) : Prop := ∃ ts : List G.Token, s = text ts

/-! ## The first token -/

theorem accepts_nil : G.Accepts [] := ⟨[], rfl⟩

theorem plain_ne_esc {ch : α} (h : G.plain ch = true) : ch ≠ G.esc := by
  rintro rfl
  rw [G.plain_esc] at h
  cases h

theorem accepts_cons_iff {ch : α} (hne : ch ≠ G.esc) (s : List α) :
    G.Accepts (ch :: s) ↔ G.plain ch = true ∧ G.Accepts s := by
  constructor
  · rintro ⟨_ | ⟨t, ts⟩, hs⟩
    · cases hs
    · rw [text_cons] at hs
      cases t with
      | plain ch' h =>
          obtain ⟨rfl, rfl⟩ := List.cons.inj hs
          exact ⟨h, ts, rfl⟩
      | escape high low h => exact (hne (List.cons.inj hs).1).elim
  · rintro ⟨h, ts, rfl⟩
    exact ⟨.plain ch h :: ts, rfl⟩

theorem accepts_escape_iff (high low : α) (s : List α) :
    G.Accepts (G.esc :: high :: low :: s) ↔ G.pair high low = true ∧ G.Accepts s := by
  constructor
  · rintro ⟨_ | ⟨t, ts⟩, hs⟩
    · cases hs
    · rw [text_cons] at hs
      cases t with
      | plain ch h => exact (plain_ne_esc h (List.cons.inj hs).1.symm).elim
      | escape high' low' h =>
          obtain ⟨rfl, rfl, rfl⟩ : high = high' ∧ low = low' ∧ s = text ts := by
            simpa [Token.text] using hs
          exact ⟨h, ts, rfl⟩
  · rintro ⟨h, ts, rfl⟩
    exact ⟨.escape high low h :: ts, rfl⟩

end Grammar

end Escapes
