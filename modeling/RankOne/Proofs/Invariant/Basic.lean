import RankOne.Proofs.Circuit
import RankOne.Proofs.Layout

/-! Invariants of wires. A property of expressions and bits that their operations keep is kept by
every gadget, whatever the values on the wires; this module has the judgement, its rules for
circuits and loops, and the arithmetic of expressions and bits. -/
namespace RankOne

/-- A property of the expressions and the bits of a circuit once it has `n` variables, kept by
all that gadgets do with them. A new bit may rely on the constraints that are granted. -/
structure WireInvariant where
  expr : ℕ → Expr → Prop
  bit : ℕ → Bit → Prop
  granted : Constraint → Prop
  expr_mono {n m : ℕ} {e : Expr} : n ≤ m → expr n e → expr m e
  bit_mono {n m : ℕ} {b : Bit} : n ≤ m → bit n b → bit m b
  const (n : ℕ) (c : Fr) : expr n (.const c)
  var {n i : ℕ} : i < n → expr n (.var i)
  add {n : ℕ} {a b : Expr} : expr n a → expr n b → expr n (.add a b)
  scale {n : ℕ} {e : Expr} (s : Fr) : expr n e → expr n (.scale s e)
  unscale {n : ℕ} {s : Fr} {e : Expr} : expr n (.scale s e) → expr n e
  ofBit {n : ℕ} {b : Bit} : bit n b → expr n b.expr
  bitConst (n : ℕ) (b : Bool) : bit n (.const b)
  bitNot {n : ℕ} {b : Bit} : bit n b → bit n b.not
  /-- A constant factor takes no constraint. -/
  bitScaled {n : ℕ} {c : Fr} {b : Bit} : bit n ⟨.const c⟩ → bit n b → bit n ⟨b.expr.scaleBy c⟩
  bitProduct {n : ℕ} {a b : Bit} {e : Expr} : bit n a → bit n b → expr n e →
    granted (.product a.expr b.expr e) → bit n ⟨e⟩
  bitXor {n : ℕ} {a b : Bit} {e : Expr} : bit n a → bit n b → expr n e →
    granted (.product (a.expr + a.expr) b.expr (a.expr + b.expr - e)) → bit n ⟨e⟩
  bitChecked {n : ℕ} {e : Expr} : expr n e → granted (.isBit e) → bit n ⟨e⟩

/-- Wires made of expressions and bits, and what an invariant says of them. -/
class Wired (α : Type) where
  Ok : WireInvariant → ℕ → α → Prop
  mono {W : WireInvariant} {n m : ℕ} {a : α} : n ≤ m → Ok W n a → Ok W m a

namespace WireInvariant
variable {W : WireInvariant} {α β γ : Type} [Wired α] [Wired β] [Wired γ] {n m : ℕ}

def Ok (W : WireInvariant) (n : ℕ) (a : α) : Prop := Wired.Ok W n a

theorem Ok.mono {a : α} (h : W.Ok n a) (le : n ≤ m) : W.Ok m a := Wired.mono le h

instance : Wired Expr := ⟨WireInvariant.expr, fun {W} _ _ _ => W.expr_mono⟩

instance : Wired Bit := ⟨WireInvariant.bit, fun {W} _ _ _ => W.bit_mono⟩

instance : Wired Unit := ⟨fun _ _ _ => True, fun _ h => h⟩

instance : Wired ℕ := ⟨fun _ _ _ => True, fun _ h => h⟩

instance : Wired Fr := ⟨fun _ _ _ => True, fun _ h => h⟩

instance : Wired (List α) :=
  ⟨fun W n as => ∀ a ∈ as, W.Ok n a, fun le h a member => (h a member).mono le⟩

instance : Wired (α × β) :=
  ⟨fun W n p => W.Ok n p.1 ∧ W.Ok n p.2, fun le h => ⟨h.1.mono le, h.2.mono le⟩⟩

section Lists
variable {a : α} {as bs : List α}

theorem ok_list : W.Ok n as ↔ ∀ a ∈ as, W.Ok n a := Iff.rfl

@[simp] theorem ok_nil : W.Ok n ([] : List α) := by simp [ok_list]

@[simp] theorem ok_cons : W.Ok n (a :: as) ↔ W.Ok n a ∧ W.Ok n as := List.forall_mem_cons

@[simp] theorem ok_append : W.Ok n (as ++ bs) ↔ W.Ok n as ∧ W.Ok n bs := List.forall_mem_append

@[simp] theorem ok_pair {b : β} : W.Ok n (a, b) ↔ W.Ok n a ∧ W.Ok n b := Iff.rfl

@[simp] theorem ok_flatten {ass : List (List α)} : W.Ok n ass.flatten ↔ W.Ok n ass :=
  List.forall_mem_flatten

theorem Ok.subset (h : W.Ok n as) (part : bs ⊆ as) : W.Ok n bs := fun _ member => h _ (part member)

theorem Ok.take (h : W.Ok n as) (k : ℕ) : W.Ok n (as.take k) := h.subset (List.take_subset k as)

theorem Ok.drop (h : W.Ok n as) (k : ℕ) : W.Ok n (as.drop k) := h.subset (List.drop_subset k as)

theorem Ok.chunksOf (h : W.Ok n as) (k : ℕ) : W.Ok n (chunksOf k as) := by
  rw [← ok_flatten, flatten_chunksOf]
  exact h

theorem Ok.rotateLeft (h : W.Ok n as) (k : ℕ) : W.Ok n (List.rotateLeft as k) := by
  unfold List.rotateLeft
  dsimp only
  split
  · exact h
  · exact ok_append.mpr ⟨h.drop _, h.take _⟩

theorem Ok.rotateRight (h : W.Ok n as) (k : ℕ) : W.Ok n (List.rotateRight as k) := by
  unfold List.rotateRight
  dsimp only
  split
  · exact h
  · exact ok_append.mpr ⟨h.drop _, h.take _⟩

theorem Ok.map {f : α → β} (h : W.Ok n as) (keeps : ∀ a, W.Ok n a → W.Ok n (f a)) :
    W.Ok n (as.map f) := by
  intro b member
  obtain ⟨a, inside, rfl⟩ := List.mem_map.mp member
  exact keeps a (h a inside)

theorem Ok.zip {bs : List β} (h : W.Ok n as) (h' : W.Ok n bs) : W.Ok n (as.zip bs) :=
  fun _ member => ⟨h _ (List.of_mem_zip member).1, h' _ (List.of_mem_zip member).2⟩

theorem Ok.get {i : ℕ} (h : W.Ok n as) (found : as[i]? = some a) : W.Ok n a :=
  h a (List.mem_of_getElem? found)

theorem Ok.set (h : W.Ok n as) (i : ℕ) (h' : W.Ok n a) : W.Ok n (as.set i a) := by
  intro b member
  rcases List.mem_or_eq_of_mem_set member with old | rfl
  · exact h b old
  · exact h'

end Lists

def constraint (W : WireInvariant) (n : ℕ) : Constraint → Prop
  | .isBit x => W.expr n x
  | .equal x y => W.expr n x ∧ W.expr n y
  | .square x y => W.expr n x ∧ W.expr n y
  | .product a b c => W.expr n a ∧ W.expr n b ∧ W.expr n c

instance : Wired Constraint where
  Ok := constraint
  mono {W n m k} le h := by
    cases k with
    | isBit x => exact W.expr_mono le h
    | equal x y => exact ⟨W.expr_mono le h.1, W.expr_mono le h.2⟩
    | square x y => exact ⟨W.expr_mono le h.1, W.expr_mono le h.2⟩
    | product a b c =>
      exact ⟨W.expr_mono le h.1, W.expr_mono le h.2.1, W.expr_mono le h.2.2⟩

end WireInvariant

namespace WireInvariant
variable {W : WireInvariant} {α β γ σ : Type} [Wired α] [Wired β] [Wired γ] [Wired σ] {n m : ℕ}

/-- From `n` variables on, where the constraints of the circuit are granted, all of them and the
result satisfy the invariant. -/
structure Keeps (W : WireInvariant) (c : Circuit α) (n : ℕ) : Prop where
  emits : c.Emits (fun _ => W.granted) n → c.Emits W.constraint n
  result : c.Emits (fun _ => W.granted) n → ∀ a m, c.outcome n = some (a, m) → W.Ok m a

namespace Keeps
variable {c : Circuit α} {f : α → Circuit β}

theorem pure {a : α} (h : W.Ok n a) : W.Keeps (pure a) n where
  emits _ := trivial
  result _ := by rintro _ _ ⟨⟩; exact h

theorem fail (e : Error) : W.Keeps (Circuit.fail e : Circuit α) n := ⟨fun _ => trivial, nofun⟩

theorem reject (e : CompilationError) : W.Keeps (Circuit.reject e : Circuit α) n := fail _

theorem bind (hc : W.Keeps c n) (next : ∀ a m, n ≤ m → W.Ok m a → W.Keeps (f a) m) :
    W.Keeps (c >>= f) n := by
  have step (granted : (c >>= f).Emits (fun _ => W.granted) n) (a : α) (m : ℕ)
      (given : c.outcome n = some (a, m)) :
      W.Keeps (f a) m ∧ (f a).Emits (fun _ => W.granted) m := by
    obtain ⟨first, second⟩ := Circuit.emits_bind.mp granted
    exact ⟨next a m (Circuit.outcome_le given) (hc.result first a m given), second a m given⟩
  refine ⟨fun granted => ?_, fun granted b k given => ?_⟩
  · refine Circuit.emits_bind.mpr ⟨?_, fun a m given => ?_⟩
    · exact hc.emits (Circuit.emits_bind.mp granted).1
    · obtain ⟨kept, second⟩ := step granted a m given
      exact kept.emits second
  · change (c.bind f).outcome n = _ at given
    rw [Circuit.outcome_bind] at given
    obtain ⟨⟨a, m⟩, first, rest⟩ := Option.bind_eq_some_iff.mp given
    obtain ⟨kept, second⟩ := step granted a m first
    exact kept.result second b k rest

theorem map {g : α → β} (hc : W.Keeps c n) (keeps : ∀ a m, W.Ok m a → W.Ok m (g a)) :
    W.Keeps (c >>= fun a => Pure.pure (g a)) n :=
  hc.bind fun a m _ h => pure (keeps a m h)

/-- Constraints on wires that satisfy the invariant. The continuation may rely on them. -/
theorem constrain {cs : List Constraint} {label loc : String} {next : Circuit α} (h : W.Ok n cs)
    (rest : (∀ k ∈ cs, W.granted k) → W.Keeps next n) :
    W.Keeps (.constrain cs label loc next) n where
  emits granted := ⟨h, (rest granted.1).emits granted.2⟩
  result granted := (rest granted.1).result granted.2

theorem assert {cs : List Constraint} (label : Option String) (loc : String) (h : W.Ok n cs) :
    W.Keeps (Circuit.assert label loc cs) n :=
  constrain h fun _ => pure trivial

theorem witness {s : Shape} {len : ℕ} {loc : String}
    {hint : Witness → Except RuntimeError (List s.Value)} {next : ℕ → Circuit α}
    (rest : W.Keeps (next n) (n + len * s.size)) :
    W.Keeps (.witness s len loc hint next) n := ⟨rest.emits, rest.result⟩

theorem mapM {f : α → Circuit β} {as : List α} (h : W.Ok n as)
    (step : ∀ a m, n ≤ m → W.Ok m a → W.Keeps (f a) m) : W.Keeps (as.mapM f) n := by
  induction as generalizing n with
  | nil => exact pure ok_nil
  | cons a as ih =>
    obtain ⟨head, tail⟩ := ok_cons.mp h
    rw [List.mapM_cons]
    refine (step a n (le_refl n) head).bind fun b m le first => ?_
    refine (ih (tail.mono le) fun a k le' => step a k (le.trans le')).bind fun bs k le' rest => ?_
    exact pure (ok_cons.mpr ⟨first.mono le', rest⟩)

theorem foldlM {f : σ → α → Circuit σ} {as : List α} {s : σ} (h : W.Ok n as) (start : W.Ok n s)
    (step : ∀ s a m, n ≤ m → W.Ok m s → W.Ok m a → W.Keeps (f s a) m) :
    W.Keeps (as.foldlM f s) n := by
  induction as generalizing n s with
  | nil => exact pure start
  | cons a as ih =>
    obtain ⟨head, tail⟩ := ok_cons.mp h
    rw [List.foldlM_cons]
    refine (step s a n (le_refl n) start head).bind fun s' m le next => ?_
    exact ih (tail.mono le) next fun s a k le' => step s a k (le.trans le')

end Keeps

section Arithmetic
variable {e x y : Expr} {a b : Bit}

theorem ok_plus (hx : W.Ok n x) (hy : W.Ok n y) : W.Ok n (x + y) := by
  change W.Ok n (Expr.plus x y)
  unfold Expr.plus
  split
  · split
    · exact hy
    · split
      · exact hx
      · exact W.const n _
  · split
    · exact hy
    · exact W.add hx hy
  · split
    · exact hx
    · exact W.add hx hy
  · exact W.add hx hy

theorem ok_scaleBy (h : W.Ok n e) (s : Fr) : W.Ok n (e.scaleBy s) := by
  unfold Expr.scaleBy
  split
  · exact W.const n 0
  · split
    · exact h
    · split
      · exact W.const n _
      · exact W.scale _ (W.unscale h)
      · exact W.scale _ h

theorem ok_negate (h : W.Ok n e) : W.Ok n (-e) := ok_scaleBy h (-1)

theorem ok_minus (hx : W.Ok n x) (hy : W.Ok n y) : W.Ok n (x - y) := by
  change W.Ok n (Expr.minus x y)
  unfold Expr.minus
  split
  · exact W.const n _
  · exact ok_plus hx (ok_negate hy)

theorem ok_linearCombination {terms : List (Fr × Expr)} (h : ∀ t ∈ terms, W.Ok n t.2) :
    W.Ok n (Expr.linearCombination terms) := by
  have fold (start : Expr) (h₀ : W.Ok n start) :
      W.Ok n (terms.foldl (fun acc term => acc + term.2.scaleBy term.1) start) := by
    induction terms generalizing start with
    | nil => exact h₀
    | cons t terms ih =>
      obtain ⟨head, tail⟩ := List.forall_mem_cons.mp h
      exact ih tail _ (ok_plus h₀ (ok_scaleBy head _))
  exact fold 0 (W.const n 0)

theorem ok_sum {es : List Expr} (h : W.Ok n es) : W.Ok n (Expr.sum es) := by
  apply ok_linearCombination
  intro t member
  obtain ⟨e, inside, rfl⟩ := List.mem_map.mp member
  exact h e inside

theorem keeps_pinned {k : Expr → Constraint} {label : Option String} {loc loc' : String}
    {hint : Witness → Except RuntimeError Fr} (h : W.Ok (n + 1) (k (.var n))) :
    W.Keeps (do
      let r ← Circuit.computeFree .field loc hint
      Circuit.assert label loc' [k r]
      return r) n :=
  Keeps.witness (Keeps.constrain (List.forall_mem_singleton.mpr h) fun _ =>
    Keeps.pure (W.var (Nat.lt_succ_self n)))

theorem keeps_mul (hx : W.Ok n x) (hy : W.Ok n y) (label : Option String) (loc : String) :
    W.Keeps (x.mul y label loc) n := by
  unfold Expr.mul
  split
  · exact Keeps.pure (ok_scaleBy hy _)
  · exact Keeps.pure (ok_scaleBy hx _)
  · exact keeps_pinned
      ⟨hx.mono (Nat.le_succ n), hy.mono (Nat.le_succ n), W.var (Nat.lt_succ_self n)⟩

theorem keeps_square (h : W.Ok n x) (loc : String) : W.Keeps (x.square loc) n := by
  unfold Expr.square
  split
  · exact Keeps.pure (W.const n _)
  · exact keeps_pinned ⟨h.mono (Nat.le_succ n), W.var (Nat.lt_succ_self n)⟩

theorem keeps_assertEquals (hx : W.Ok n x) (hy : W.Ok n y) (loc : String) :
    W.Keeps (x.assertEquals y loc) n := by
  unfold Expr.assertEquals
  split
  · split
    · exact Keeps.pure trivial
    · exact Keeps.reject _
  · exact Keeps.assert _ _ (by simpa using ⟨hx, hy⟩)

end Arithmetic
end WireInvariant
end RankOne
