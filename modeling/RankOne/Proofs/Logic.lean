import RankOne.Proofs.Gadgets
import RankOne.Proofs.Session

/-! Ways of judging circuits that add, multiply and square. A gadget of such circuits is followed
once for all of them: to be exact, to be compiled whatever its operands are, and to be determined
by its operands where they are expressions of any kind. -/
namespace RankOne.Circuit
variable {α β : Type} {z z' : Assignment} {n m : ℕ}

/-- A judgement of circuits, from a number of variables on, by a property of the result, and what
it means there for an expression to carry a value. -/
structure Logic where
  judges {α : Type} : Circuit α → ℕ → (α → ℕ → Prop) → Prop
  carries : ℕ → Expr → Fr → Prop
  pure {α : Type} {a : α} {n : ℕ} {P : α → ℕ → Prop} : P a n → judges (pure a) n P
  bind {α β : Type} {c : Circuit α} {f : α → Circuit β} {n : ℕ} {P : α → ℕ → Prop}
    {Q : β → ℕ → Prop} : judges c n P → (∀ a m, n ≤ m → P a m → judges (f a) m Q) →
    judges (c >>= f) n Q
  mono {e : Expr} {v : Fr} {n m : ℕ} : carries n e v → n ≤ m → carries m e v
  const (n : ℕ) (c : Fr) : carries n (.const c) c
  plus {a b : Expr} {u v : Fr} {n : ℕ} : carries n a u → carries n b v → carries n (a + b) (u + v)
  mul {a b : Expr} {u v : Fr} {n : ℕ} : carries n a u → carries n b v →
    ∀ label loc, judges (a.mul b label loc) n fun r m => carries m r (u * v)
  square {a : Expr} {u : Fr} {n : ℕ} : carries n a u →
    ∀ loc, judges (a.square loc) n fun r m => carries m r (u * u)

namespace Logic

section Loops
variable (L : Logic) {ω ω' ω'' υ υ' υ'' σ τ : Type}

theorem weaken {c : Circuit α} {P Q : α → ℕ → Prop} (h : L.judges c n P)
    (weaker : ∀ a m, n ≤ m → P a m → Q a m) : L.judges c n Q := by
  rw [← bind_pure c]
  exact L.bind h fun a m le property => L.pure (weaker a m le property)

theorem stable_carries : Stable L.carries := fun _ _ _ _ le h => L.mono h le

/-- A loop over wires computes the loop over their values. -/
theorem mapM {R : ℕ → ω → υ → Prop} {S : ℕ → ω' → υ' → Prop} (stableR : Stable R)
    (stableS : Stable S) {f : ω → Circuit ω'} (g : υ → υ')
    (step : ∀ w v m, R m w v → L.judges (f w) m fun w' k => S k w' (g v))
    {ws : List ω} {vs : List υ} (h : List.Forall₂ (R n) ws vs) :
    L.judges (ws.mapM f) n fun ws' m => List.Forall₂ (S m) ws' (vs.map g) := by
  induction ws generalizing vs n with
  | nil => cases h; exact L.pure .nil
  | cons w ws ih =>
    obtain ⟨v, vs, head, tail, rfl⟩ := List.forall₂_cons_left_iff.mp h
    rw [List.mapM_cons]
    refine L.bind (step w v n head) fun w' m le first => ?_
    refine L.bind (ih (stableR.list.mono le tail)) fun ws' k le' rest => ?_
    exact L.pure (.cons (stableS.mono le' first) rest)

/-- A loop with a state computes the loop over the values of the state. -/
theorem foldlM {R : ℕ → σ → τ → Prop} {S : ℕ → ω → υ → Prop} (stableS : Stable S)
    {f : σ → ω → Circuit σ} (g : τ → υ → τ)
    (step : ∀ s t w v m, R m s t → S m w v → L.judges (f s w) m fun s' k => R k s' (g t v))
    {ws : List ω} {vs : List υ} (h : List.Forall₂ (S n) ws vs) {s : σ} {t : τ} (start : R n s t) :
    L.judges (ws.foldlM f s) n fun s' m => R m s' (vs.foldl g t) := by
  induction ws generalizing vs n s t with
  | nil => cases h; exact L.pure start
  | cons w ws ih =>
    obtain ⟨v, vs, head, tail, rfl⟩ := List.forall₂_cons_left_iff.mp h
    rw [List.foldlM_cons]
    refine L.bind (step s t w v n start head) fun s' m le next => ?_
    exact ih (stableS.list.mono le tail) next

/-- Two loops in one: a circuit on pairs of wires computes a function of pairs of values. -/
theorem mapM_zip {R : ℕ → ω → υ → Prop} {S : ℕ → ω' → υ' → Prop} {T : ℕ → ω'' → υ'' → Prop}
    (stableR : Stable R) (stableS : Stable S) (stableT : Stable T)
    {f : ω × ω' → Circuit ω''} (g : υ → υ' → υ'')
    (step : ∀ w w' v v' m, R m w v → S m w' v' →
      L.judges (f (w, w')) m fun r k => T k r (g v v'))
    {ws : List ω} {vs : List υ} {ws' : List ω'} {vs' : List υ'}
    (h : List.Forall₂ (R n) ws vs) (h' : List.Forall₂ (S n) ws' vs') :
    L.judges ((ws.zip ws').mapM f) n fun r m => List.Forall₂ (T m) r (vs.zipWith g vs') := by
  have stable : Stable fun n (p : ω × ω') (q : υ × υ') => R n p.1 q.1 ∧ S n p.2 q.2 :=
    fun _ _ _ _ le h => ⟨stableR.mono le h.1, stableS.mono le h.2⟩
  have loop : L.judges ((ws.zip ws').mapM f) n _ :=
    L.mapM stable stableT (fun q => g q.1 q.2)
      (fun p q m hp => step p.1 p.2 q.1 q.2 m hp.1 hp.2) (Bits.forall₂_zip h h')
  rwa [List.map_zip_eq_zipWith] at loop

end Loops

def exact (z : Assignment) (given : Prop) : Logic where
  judges c n P := Exact z given c n P
  carries n e v := e.Carries z n v
  pure := Exact.pure
  bind := Exact.bind
  mono := Expr.Carries.mono
  const _ := Expr.carries_const
  plus := Expr.Carries.plus
  mul ha hb := Expr.exact_mul ha hb
  square := Expr.exact_square

/-- The circuit compiles. Every constraint is about a new variable, so that none is refused,
whether an assignment satisfies it or not. -/
def compiles : Logic where
  judges c n P := c.Emits (fun _ => Session.Compilable) n ∧
    ∃ a m, c.outcome n = some (a, m) ∧ P a m
  carries _ _ _ := True
  pure h := ⟨trivial, _, _, rfl, h⟩
  bind {α β c f n P Q} hc next := by
    obtain ⟨emits, a, m, outcome, h⟩ := hc
    obtain ⟨emits', b, k, outcome', h'⟩ := next a m (outcome_le outcome) h
    refine ⟨(emits_bind_of_outcome outcome).mpr ⟨emits, emits'⟩, b, k, ?_, h'⟩
    change (c.bind f).outcome n = _
    rw [outcome_bind, outcome]
    exact outcome'
  mono _ _ := trivial
  const _ _ := trivial
  plus _ _ := trivial
  mul {a b u v n} _ _ label loc := by
    unfold Expr.mul
    split
    · exact ⟨trivial, _, _, rfl, trivial⟩
    · exact ⟨trivial, _, _, rfl, trivial⟩
    · exact ⟨⟨List.forall_mem_singleton.mpr (Session.compilable_of_variable rfl), trivial⟩,
        _, _, rfl, trivial⟩
  square {a u n} _ loc := by
    unfold Expr.square
    split
    · exact ⟨trivial, _, _, rfl, trivial⟩
    · exact ⟨⟨List.forall_mem_singleton.mpr (Session.compilable_of_variable rfl), trivial⟩,
        _, _, rfl, trivial⟩

end Logic

/-- Two assignments that satisfy the constraints of the circuit agree on its variables, and the
result has the property. -/
def Pins (z z' : Assignment) (c : Circuit α) (n : ℕ) (P : α → ℕ → Prop) : Prop :=
  c.Holds z n → c.Holds z' n → ∀ a m, c.outcome n = some (a, m) →
    (∀ i, n ≤ i → i < m → z i = z' i) ∧ P a m

namespace Pins

theorem pure {a : α} {P : α → ℕ → Prop} (h : P a n) : Pins z z' (pure a) n P := by
  rintro - - _ _ ⟨⟩
  exact ⟨fun i _ _ => by omega, h⟩

theorem bind {c : Circuit α} {f : α → Circuit β} {P : α → ℕ → Prop} {Q : β → ℕ → Prop}
    (hc : Pins z z' c n P) (next : ∀ a m, n ≤ m → P a m → Pins z z' (f a) m Q) :
    Pins z z' (c >>= f) n Q := by
  intro holds holds' b k result
  change (c.bind f).outcome n = _ at result
  rw [outcome_bind] at result
  obtain ⟨⟨a, m⟩, outcome, rest⟩ := Option.bind_eq_some_iff.mp result
  obtain ⟨first, second⟩ := (holds_bind outcome).mp holds
  obtain ⟨first', second'⟩ := (holds_bind outcome).mp holds'
  obtain ⟨before, h⟩ := hc first first' a m outcome
  obtain ⟨after, h'⟩ := next a m (outcome_le outcome) h second second' b k rest
  refine ⟨fun i low high => ?_, h'⟩
  by_cases inside : i < m
  · exact before i low inside
  · exact after i (not_lt.mp inside) high

/-- A new variable with one constraint on it, which both assignments satisfy by one value. -/
theorem pinned {s : Shape} {k : s.Var → Constraint} {label : Option String} {loc loc' : String}
    {hint : Witness → Except RuntimeError s.Value} {v : Fr} (size : s.size = 1)
    (meaning : (k (s.varsFrom n)).Holds z → z n = v)
    (meaning' : (k (s.varsFrom n)).Holds z' → z' n = v) :
    Pins z z' (do
      let r ← computeFree s loc hint
      assert label loc' [k r]
      return r) n fun r _ => r = s.varsFrom n ∧ z n = v ∧ z' n = v := by
  rintro ⟨holds, -⟩ ⟨holds', -⟩ _ _ ⟨⟩
  have value := meaning (holds _ List.mem_cons_self)
  have value' := meaning' (holds' _ List.mem_cons_self)
  refine ⟨fun i low high => ?_, rfl, value, value'⟩
  change i < n + 1 * s.size at high
  obtain rfl : i = n := by omega
  rw [value, value']

end Pins

theorem Pins.carries {k : Expr → Constraint} {label : Option String} {loc loc' : String}
    {hint : Witness → Except RuntimeError Fr} {v : Fr}
    (meaning : (k (.var n)).Holds z → z n = v) (meaning' : (k (.var n)).Holds z' → z' n = v) :
    Pins z z' (do
      let r ← computeFree .field loc hint
      assert label loc' [k r]
      return r) n fun r _ => r.eval z = v ∧ r.eval z' = v := by
  intro holds holds' r m outcome
  obtain ⟨agree, rfl, value, value'⟩ :=
    Pins.pinned (s := .field) rfl meaning meaning' holds holds' r m outcome
  exact ⟨agree, value, value'⟩

/-- The circuit is determined by its operands, which carry one value under two assignments. -/
def Logic.pins (z z' : Assignment) : Logic where
  judges := Pins z z'
  carries _ e v := e.eval z = v ∧ e.eval z' = v
  pure := Pins.pure
  bind := Pins.bind
  mono h _ := h
  const _ _ := ⟨rfl, rfl⟩
  plus ha hb := ⟨by rw [Expr.eval_plus, ha.1, hb.1], by rw [Expr.eval_plus, ha.2, hb.2]⟩
  mul {a b u v n} ha hb label loc := by
    unfold Expr.mul
    split
    · refine Pins.pure ⟨?_, ?_⟩
      · rw [Expr.eval_scaleBy, hb.1, ← ha.1, Expr.eval_const]
      · rw [Expr.eval_scaleBy, hb.2, ← ha.2, Expr.eval_const]
    · refine Pins.pure ⟨?_, ?_⟩
      · rw [Expr.eval_scaleBy, ha.1, ← hb.1, Expr.eval_const, mul_comm]
      · rw [Expr.eval_scaleBy, ha.2, ← hb.2, Expr.eval_const, mul_comm]
    · refine Pins.carries (k := fun r => .product a b r) (fun holds => ?_) fun holds => ?_
      · rw [← ha.1, ← hb.1]; exact holds.symm
      · rw [← ha.2, ← hb.2]; exact holds.symm
  square {a u n} ha loc := by
    unfold Expr.square
    split
    · obtain ⟨rfl, -⟩ := ha
      exact Pins.pure ⟨rfl, rfl⟩
    · refine Pins.carries (k := fun r => .square a r) (fun holds => ?_) fun holds => ?_
      · rw [← ha.1]; exact holds.symm
      · rw [← ha.2]; exact holds.symm

end RankOne.Circuit
