import RankOne.Json.Config
import RankOne.Proofs.Constraint

/-! Reading back what was written. A value may be followed by anything that can delimit it, so
that readers are undone one after the other: numbers, names, lists and vectors. -/
namespace RankOne.Json
variable {α β : Type}

/-- The text ends a value: nothing is left, or a comma or a closing bracket. -/
def Delimited (rest : List Char) : Prop := ∀ c ∈ rest.head?, c = ',' ∨ c = ']' ∨ c = '\x7d'

namespace Reader
variable {s rest : List Char} {c : Char}

theorem bind_ok {x : Reader α} {f : α → Reader β} {a : α} (h : x s = .ok (a, rest)) :
    (x >>= f) s = f a rest := by
  change StateT.bind x f s = _
  rw [StateT.bind, h]
  rfl

theorem of_bind_ok {x : Reader α} {f : α → Reader β} {b : β}
    (h : (x >>= f) s = .ok (b, rest)) : ∃ a s', x s = .ok (a, s') ∧ f a s' = .ok (b, rest) := by
  change StateT.bind x f s = _ at h
  obtain ⟨⟨a, s'⟩, first, second⟩ := exceptBind_ok h
  exact ⟨a, s', first, second⟩

theorem isBlank_of_isDigit (h : c.isDigit = true) : isBlank c = false := by
  have other {d : Char} (blank : d.isDigit = false) : c ≠ d := by
    rintro rfl
    rw [h] at blank
    cases blank
  simp [isBlank, other (d := ' ') rfl, other (d := '\n') rfl, other (d := '\t') rfl,
    other (d := '\r') rfl]

theorem token_cons (h : isBlank c = false) : token (c :: s) = .ok (c, s) := by
  rw [token, List.dropWhile_cons_of_neg (by simp [h])]

theorem peek_cons (h : isBlank c = false) : peek (c :: s) = .ok (c, c :: s) := by
  rw [peek, List.dropWhile_cons_of_neg (by simp [h])]

theorem expect_cons (h : isBlank c = false) : expect c (c :: s) = .ok ((), s) := by
  rw [expect, bind_ok (token_cons h), if_pos rfl]
  rfl

section Numbers
variable {n bound : ℕ}

theorem head_toDigits (h : 0 < n) : (Nat.toDigits 10 n).head? ≠ some '0' := by
  have digit : ∀ d < 10, 0 < d → d.digitChar ≠ '0' := by decide
  induction n using Nat.strongRecOn with
  | ind n ih =>
    by_cases small : n < 10
    · rw [Nat.toDigits_of_lt_base small, List.head?_cons, ne_eq, Option.some_inj]
      exact digit n small h
    · rw [Nat.toDigits_of_base_le (by decide) (by omega),
        List.head?_append_of_ne_nil _ Nat.toDigits_ne_nil]
      exact ih (n / 10) (by omega) (by omega)

/-- Numbers are written without a leading zero. -/
theorem isNumeral_toDigits (n : ℕ) : isNumeral (Nat.toDigits 10 n) = true := by
  by_cases small : n < 10
  · rw [Nat.toDigits_of_lt_base small]
    rfl
  · have head := head_toDigits (n := n) (by omega)
    have nonempty := Nat.toDigits_ne_nil (n := n) (b := 10)
    generalize Nat.toDigits 10 n = digits at head nonempty
    match digits with
    | [] => exact absurd rfl nonempty
    | [_] => rfl
    | c :: _ :: _ => simpa [isNumeral] using head

theorem digitsValue_toDigits (n : ℕ) : digitsValue (Nat.toDigits 10 n) = n :=
  Nat.ofDigitChars_ten_toDigits

/-- What follows a value does not continue its digits. -/
theorem span_of_delimited (delimited : Delimited rest) :
    rest.takeWhile Char.isDigit = [] ∧ rest.dropWhile Char.isDigit = rest := by
  cases rest with
  | nil => exact ⟨rfl, rfl⟩
  | cons c rest => rcases delimited c rfl with rfl | rfl | rfl <;> exact ⟨rfl, rfl⟩

theorem nat_toDigits (small : n < bound) (delimited : Delimited rest) :
    nat bound (Nat.toDigits 10 n ++ rest) = .ok (n, rest) := by
  have digits : ∀ c ∈ Nat.toDigits 10 n, c.isDigit = true := fun _ =>
    Nat.isDigit_of_mem_toDigits (by decide) (by decide)
  obtain ⟨none, all⟩ := span_of_delimited delimited
  have first : ∃ c, peek (Nat.toDigits 10 n ++ rest) = .ok (c, Nat.toDigits 10 n ++ rest) := by
    cases text : Nat.toDigits 10 n with
    | nil => exact absurd text Nat.toDigits_ne_nil
    | cons c cs =>
      have digit := digits c (by rw [text]; exact List.mem_cons_self)
      exact ⟨c, peek_cons (isBlank_of_isDigit digit)⟩
  obtain ⟨c, first⟩ := first
  have taken : (Nat.toDigits 10 n ++ rest).takeWhile Char.isDigit = Nat.toDigits 10 n := by
    rw [List.takeWhile_append_of_pos digits, none, List.append_nil]
  have left : (Nat.toDigits 10 n ++ rest).dropWhile Char.isDigit = rest := by
    rw [List.dropWhile_append_of_pos digits, all]
  rw [nat, bind_ok first, bind_ok (x := (get : Reader (List Char))) rfl]
  rw [taken, left, isNumeral_toDigits, digitsValue_toDigits]
  cases rest with
  | nil => simp [small]; rfl
  | cons c rest => rcases delimited c rfl with rfl | rfl | rfl <;> simp [small] <;> rfl

end Numbers
section Names
variable {name : List Char}

def Plain (name : List Char) : Prop := ∀ c ∈ name, c ≠ '"' ∧ c ≠ '\\' ∧ 0x20 ≤ c.toNat
instance (name : List Char) : Decidable (Plain name) := List.decidableBAll _ name

theorem piecesFrom_plain (plain : Plain name) :
    piecesFrom (name ++ '"' :: rest) = .ok (name.map (.char · false), rest) := by
  induction name with
  | nil => rfl
  | cons c name ih =>
    obtain ⟨⟨quote, slash, -⟩, plain⟩ := List.forall_mem_cons.mp plain
    rw [List.cons_append, piecesFrom]
    · rw [ih plain]; rfl
    all_goals simp [quote, slash]

theorem joinCodes_chars (name : List Char) :
    joinCodes (name.map (.char · false)) = name.map Char.toNat := by
  induction name with
  | nil => rfl
  | cons c name ih => rw [List.map_cons, joinCodes, ih, List.map_cons]

/-- A character is no half of another one. -/
theorem not_half (c : Char) : (!isLead c.toNat && !isTrail c.toNat) = true := by
  have valid : c.toNat < 0xd800 ∨ 0xdfff < c.toNat ∧ c.toNat < 0x110000 := c.valid
  simp only [isLead, isTrail, Bool.and_eq_true, Bool.not_eq_true', Bool.and_eq_false_iff,
    decide_eq_false_iff_not]
  omega

theorem text_plain (plain : Plain name) : text ('"' :: name ++ '"' :: rest) = .ok (name, rest) := by
  have read : pieces ('"' :: name ++ '"' :: rest) = .ok (name.map (.char · false), rest) := by
    rw [pieces, List.cons_append, bind_ok (expect_cons rfl), piecesFrom_plain plain]
  have legal : (name.map (Piece.char · false)).all Piece.plain = true := by
    simpa [Piece.plain] using fun c member => (plain c member).2.2
  have whole : (name.map Char.toNat).all (fun n => !isLead n && !isTrail n) = true := by
    rw [List.all_map, List.all_eq_true]
    exact fun c _ => not_half c
  have same : (name.map Char.toNat).map Char.ofNat = name := by simp [Function.comp_def]
  rw [text, bind_ok read]
  simp only [joinCodes_chars, legal, whole, same]
  rfl

end Names

end Reader

def joined : List (List Char) → List Char
  | [] => []
  | [x] => x
  | x :: xs => x ++ ',' :: joined xs

theorem joined_cons_cons (x y : List Char) (xs : List (List Char)) :
    joined (x :: y :: xs) = x ++ ',' :: joined (y :: xs) := rfl

theorem toList_intercalate (texts : List String) :
    (",".intercalate texts).toList = joined (texts.map String.toList) := by
  induction texts with
  | nil => simp [joined]
  | cons x xs ih =>
    cases xs with
    | nil => simp [joined]
    | cons y ys =>
      rw [String.intercalate_cons_cons, String.toList_append, String.toList_append, ih]
      simp [joined_cons_cons]

theorem length_le_joined (xs : List (List Char)) : xs.length ≤ (joined xs).length + 1 := by
  induction xs with
  | nil => simp
  | cons x xs ih =>
    cases xs with
    | nil => simp
    | cons y ys =>
      rw [joined_cons_cons, List.length_cons, List.length_append, List.length_cons (a := ',')]
      omega

/-- What a reader makes of a written value, whatever delimits the value. -/
def Undoes (reader : Reader α) (text : List Char) (a : α) : Prop :=
  ∀ rest, Delimited rest → reader (text ++ rest) = .ok (a, rest)

theorem Undoes.map {reader : Reader α} {text : List Char} {a : α} (h : Undoes reader text a)
    (f : α → β) : Undoes (do return f (← reader)) text (f a) := by
  intro rest delimited
  exact Reader.bind_ok (h rest delimited)

/-- No blank and no closing bracket, so that a list of values is not taken for an empty one. -/
def Opens (text : List Char) : Prop :=
  ∃ c cs, text = c :: cs ∧ Reader.isBlank c = false ∧ c ≠ ']'

namespace Reader
variable {item : Reader α} {write : α → List Char} {xs : List α} {rest : List Char} {fuel : ℕ}

theorem itemsFrom_joined (undoes : ∀ x ∈ xs, Undoes item (write x) x) (nonempty : xs ≠ [])
    (enough : xs.length ≤ fuel) :
    itemsFrom item fuel (joined (xs.map write) ++ ']' :: rest) = .ok (xs, rest) := by
  induction xs generalizing fuel with
  | nil => exact absurd rfl nonempty
  | cons x xs ih =>
    obtain ⟨fuel, rfl⟩ := Nat.exists_eq_succ_of_ne_zero (n := fuel) (by simp at enough; omega)
    obtain ⟨first, others⟩ := List.forall_mem_cons.mp undoes
    cases xs with
    | nil =>
      have read : item (write x ++ ']' :: rest) = .ok (x, ']' :: rest) :=
        first _ (by simp [Delimited])
      rw [List.map_singleton, joined, itemsFrom, bind_ok read, bind_ok (token_cons rfl)]
      rfl
    | cons y ys =>
      have read : item (write x ++ ',' :: (joined ((y :: ys).map write) ++ ']' :: rest)) =
          .ok (x, ',' :: (joined ((y :: ys).map write) ++ ']' :: rest)) :=
        first _ (by simp [Delimited])
      have remaining := ih others (by simp) (Nat.le_of_succ_le_succ enough)
      rw [List.map_cons, List.map_cons, joined_cons_cons, List.append_assoc, List.cons_append,
        itemsFrom, ← List.map_cons, bind_ok read, bind_ok (token_cons rfl)]
      exact bind_ok (f := fun xs => pure (x :: xs)) remaining

theorem undoes_list (undoes : ∀ x ∈ xs, Undoes item (write x) x)
    (opens : ∀ x ∈ xs, Opens (write x)) :
    Undoes (list item) ('[' :: joined (xs.map write) ++ [']']) xs := by
  intro rest _
  change list item ('[' :: (joined (xs.map write) ++ [']'] ++ rest)) = _
  rw [List.append_assoc, list, bind_ok (expect_cons rfl)]
  cases xs with
  | nil => rfl
  | cons x xs =>
    obtain ⟨c, cs, text, visible, open_⟩ := opens x List.mem_cons_self
    have first : ∃ cs, joined ((x :: xs).map write) ++ ([']'] ++ rest) = c :: cs := by
      cases xs with
      | nil => exact ⟨_, by rw [List.map_singleton, joined, text]; rfl⟩
      | cons y ys => exact ⟨_, by rw [List.map_cons, List.map_cons, joined_cons_cons, text]; rfl⟩
    obtain ⟨cs, first⟩ := first
    have peeked : peek (joined ((x :: xs).map write) ++ ([']'] ++ rest)) =
        .ok (c, joined ((x :: xs).map write) ++ ([']'] ++ rest)) := by
      rw [first, peek_cons visible]
    rw [bind_ok peeked, if_neg open_, bind_ok (x := (get : Reader (List Char))) rfl]
    have enough := length_le_joined ((x :: xs).map write)
    rw [List.length_map] at enough
    refine itemsFrom_joined undoes (by simp) ?_
    simp only [List.length_append, List.length_singleton]
    omega

theorem undoes_nat {n bound : ℕ} (small : n < bound) :
    Undoes (nat bound) (numberText n).toList n := by
  intro rest delimited
  rw [numberText, Nat.toString_eq_repr, Nat.toList_repr]
  exact nat_toDigits small delimited

theorem undoes_vector {n : ℕ} {text : List Char} {xs : Vector α n}
    (h : Undoes (list item) text xs.toList) : Undoes (vector n item) text xs := by
  intro rest delimited
  rw [vector, bind_ok (h rest delimited), dif_pos xs.length_toList]
  rfl

/-- Bytes are written as an array, and read back as one. -/
theorem undoes_byteString {text : List Char} {bytes : List UInt8}
    (h : Undoes (list byte) ('[' :: text) bytes) : Undoes byteString ('[' :: text) bytes := by
  intro rest delimited
  rw [byteString, List.cons_append, bind_ok (peek_cons rfl), if_neg (by decide)]
  exact h rest delimited

theorem undoes_variant {choices : List (List Char × α)} {name : List Char} {a : α}
    (found : choices.lookup name = some a) (plain : Plain name) :
    Undoes (variant choices) ('"' :: name ++ ['"']) a := by
  intro rest _
  have read : text ('"' :: name ++ '"' :: rest) = .ok (name, rest) := text_plain plain
  rw [List.append_assoc, List.singleton_append, variant, List.cons_append,
    bind_ok (peek_cons rfl), if_neg (by decide), ← List.cons_append, bind_ok read]
  simp only [found]
  rfl

end Reader
end RankOne.Json
