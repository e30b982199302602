import Mathlib.Data.List.Basic

/-!
# Decoders that work token by token

A decoder reads a token when what it emits for it does not depend on what
follows (`Emits`). Tokens compose: a decoder that reads every token of a list
reads the list (`Emits.flatMap_map`). If it stops at the codes of some symbols
and emits one symbol for each of the others, it is known on everything that an
encoder writes code after code (`decode_flatMap_eq`).

Where no code word is the beginning of another (`PrefixFree`), a stream of code
words can be cut in one way only, and a stream that is cut short is one of the
first symbols, or of no symbols at all (`PrefixFree.of_flatMap`,
`PrefixFree.flatMap_ne_cut`).
-/

namespace Tokens

variable {α β ε : Type*} {dec : List β → Except ε (List α)}

/-- `dec` reads `tok`, whatever follows it, and emits `out`. -/
def Emits (dec : List β → Except ε (List α)) (tok : List β) (out : List α) : Prop :=
  ∀ rest, dec (tok ++ rest) = (dec rest).map (out ++ ·)

theorem Emits.nil : Emits dec [] [] := by
  intro rest
  cases h : dec rest <;> simp [Except.map, h]

theorem Emits.append {tok tok' : List β} {out out' : List α}
    (h : Emits dec tok out) (h' : Emits dec tok' out') :
    Emits dec (tok ++ tok') (out ++ out') := by
  intro rest
  rw [List.append_assoc, h, h']
  cases dec rest <;> simp [Except.map]

/-- A decoder that reads every token of a list reads the list. -/
theorem Emits.flatMap_map {γ : Type*} {text : γ → List β} {value : γ → α} {ts : List γ}
    (h : ∀ t ∈ ts, Emits dec (text t) [value t]) :
    Emits dec (ts.flatMap text) (ts.map value) := by
  induction ts with
  | nil => exact Emits.nil
  | cons t ts ih =>
      rw [List.flatMap_cons]
      exact (h t (List.mem_cons_self ..)).append
        (ih fun u hu => h u (List.mem_cons_of_mem _ hu))

theorem Emits.decode {tok : List β} {out : List α} (h : Emits dec tok out)
    (hnil : dec [] = .ok []) : dec tok = .ok out := by
  have := h []
  rwa [List.append_nil, hnil, Except.map, List.append_nil] at this

/-- `dec` fails with `e` where it comes to `tok`. -/
def Stops (dec : List β → Except ε (List α)) (tok : List β) (e : ε) : Prop :=
  ∀ rest, dec (tok ++ rest) = .error e

theorem decode_flatMap_eq {γ : Type*} {enc : γ → List β} {bad : γ → Bool} {value : γ → α} {e : ε}
    (hgood : ∀ a, bad a = false → Emits dec (enc a) [value a])
    (hbad : ∀ a, bad a = true → Stops dec (enc a) e) (hnil : dec [] = .ok []) (s : List γ) :
    dec (s.flatMap enc) = if s.any bad then .error e else .ok (s.map value) := by
  induction s with
  | nil => exact hnil
  | cons a s ih =>
      rw [List.flatMap_cons, List.any_cons]
      cases ha : bad a with
      | true => exact hbad a ha _
      | false =>
          rw [hgood a ha, ih, Bool.false_or]
          cases s.any bad <;> rfl

/-! ## Codes without prefixes -/

/-- The code word of a symbol with `S` is not empty, and the beginning of no other. -/
structure PrefixFree (enc : α → List β) (S : α → Prop) : Prop where
  ne_nil : ∀ {a}, S a → enc a ≠ []
  eq_of_prefix : ∀ {a b}, S a → S b → enc a <+: enc b → a = b

namespace PrefixFree

variable {enc : α → List β} {S : α → Prop}

theorem of_flatMap (h : PrefixFree enc S) {s t : List α} (hs : ∀ a ∈ s, S a)
    (ht : ∀ b ∈ t, S b) (hst : s.flatMap enc <+: t.flatMap enc) : s <+: t := by
  induction s generalizing t with
  | nil => exact List.nil_prefix
  | cons a s ih =>
      rw [List.forall_mem_cons] at hs
      rw [List.flatMap_cons] at hst
      have ha : enc a <+: t.flatMap enc := (List.prefix_append _ _).trans hst
      cases t with
      | nil => exact (h.ne_nil hs.1 (List.prefix_nil.mp ha)).elim
      | cons b t =>
          rw [List.forall_mem_cons] at ht
          rw [List.flatMap_cons] at ha hst
          -- both words begin the second stream, so one begins the other
          have hab : a = b := by
            rcases List.prefix_or_prefix_of_prefix ha (List.prefix_append _ _) with hle | hge
            · exact h.eq_of_prefix hs.1 ht.1 hle
            · exact (h.eq_of_prefix ht.1 hs.1 hge).symm
          subst hab
          rw [List.prefix_append_right_inj] at hst
          exact List.cons_prefix_cons.mpr ⟨rfl, ih hs.2 ht.2 hst⟩

theorem inj_flatMap (h : PrefixFree enc S) {s t : List α} (hs : ∀ a ∈ s, S a)
    (ht : ∀ b ∈ t, S b) (hst : s.flatMap enc = t.flatMap enc) : s = t := by
  have hle : s <+: t := h.of_flatMap hs ht (hst ▸ List.prefix_refl _)
  have hge : t <+: s := h.of_flatMap ht hs (hst ▸ List.prefix_refl _)
  exact hle.eq_of_length (Nat.le_antisymm hle.length_le hge.length_le)

/-- A stream that ends inside a code word is not the stream of any symbols. -/
theorem flatMap_ne_cut (h : PrefixFree enc S) {s t : List α} {b : α} (hs : ∀ a ∈ s, S a)
    (ht : ∀ a ∈ t, S a) (hb : S b) {k : Nat} (hpos : 0 < k) (hk : k < (enc b).length) :
    s.flatMap enc ≠ t.flatMap enc ++ (enc b).take k := by
  intro heq
  have hlen := congrArg List.length heq
  rw [List.length_append, List.length_take, Nat.min_eq_left (Nat.le_of_lt hk)] at hlen
  have hpre : s.flatMap enc <+: (t ++ [b]).flatMap enc := by
    rw [heq, List.flatMap_append, List.flatMap_singleton, List.prefix_append_right_inj]
    exact List.take_prefix _ _
  have htb : ∀ a ∈ t ++ [b], S a := by
    intro a ha
    rcases List.mem_append.mp ha with hold | hnew
    · exact ht a hold
    · rw [List.mem_singleton.mp hnew]
      exact hb
  rcases List.prefix_concat_iff.mp (h.of_flatMap hs htb hpre) with hall | hfewer
  · rw [hall, List.flatMap_append, List.flatMap_singleton, List.length_append] at hlen
    omega
  · obtain ⟨u, rfl⟩ := hfewer
    rw [List.flatMap_append, List.length_append] at hlen
    omega

end PrefixFree

end Tokens
