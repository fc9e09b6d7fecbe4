import RankOne.Circuit
import RankOne.Proofs.Constraint

/-! The meaning of a circuit under an assignment, apart from any run. A circuit is exact where
its constraints admit the values of its hints and nothing else; exactness composes along `bind`
and along loops, so that it is proved gadget by gadget. -/
namespace RankOne.Circuit
variable {α β : Type} {z : Assignment} {n m : ℕ}

/-- The result of a circuit from variable `n` on, and the number of variables after it. -/
def outcome : Circuit α → ℕ → Option (α × ℕ)
  | done a, n => some (a, n)
  | fail _, _ => none
  | witness s len _ _ next, n => (next n).outcome (n + len * s.size)
  | store _ next, n => (next n).outcome (n + 1)
  | constrain _ _ _ next, n => next.outcome n

def Holds (z : Assignment) : Circuit α → ℕ → Prop
  | done _, _ => True
  | fail _, _ => True
  | witness s len _ _ next, n => (next n).Holds z (n + len * s.size)
  | store _ next, n => (next n).Holds z (n + 1)
  | constrain cs _ _ next, n => (∀ c ∈ cs, c.Holds z) ∧ next.Holds z n

/-- Every constraint is about variables allocated before it. -/
def Scoped : Circuit α → ℕ → Prop
  | done _, _ => True
  | fail _, _ => True
  | witness s len _ _ next, n => (next n).Scoped (n + len * s.size)
  | store _ next, n => (next n).Scoped (n + 1)
  | constrain cs _ _ next, n => (∀ c ∈ cs, c.Below n) ∧ next.Scoped n

/-- Every constraint has a property, which may depend on the number of variables before it. -/
def Emits (p : ℕ → Constraint → Prop) : Circuit α → ℕ → Prop
  | done _, _ => True
  | fail _, _ => True
  | witness s len _ _ next, n => (next n).Emits p (n + len * s.size)
  | store _ next, n => (next n).Emits p (n + 1)
  | constrain cs _ _ next, n => (∀ c ∈ cs, p n c) ∧ next.Emits p n

theorem emits_of_forall {p : ℕ → Constraint → Prop} (h : ∀ m k, p m k) (c : Circuit α) (n : ℕ) :
    c.Emits p n := by
  induction c generalizing n with
  | done _ => trivial
  | fail _ => trivial
  | witness _ _ _ _ _ ih => exact ih _ _
  | store _ _ ih => exact ih _ _
  | constrain cs _ _ _ ih => exact ⟨fun k _ => h n k, ih _⟩

theorem Emits.mono {p q : ℕ → Constraint → Prop} {c : Circuit α} (h : c.Emits p n)
    (weaker : ∀ m k, p m k → q m k) : c.Emits q n := by
  induction c generalizing n with
  | done _ => trivial
  | fail _ => trivial
  | witness _ _ _ _ _ ih => exact ih _ h
  | store _ _ ih => exact ih _ h
  | constrain _ _ _ _ ih => exact ⟨fun k member => weaker n k (h.1 k member), ih h.2⟩

theorem holds_iff_emits {c : Circuit α} : c.Holds z n ↔ c.Emits (fun _ k => k.Holds z) n := by
  induction c generalizing n with
  | done _ => rfl
  | fail _ => rfl
  | witness _ _ _ _ _ ih => exact ih _
  | store _ _ ih => exact ih _
  | constrain _ _ _ _ ih => exact and_congr_right fun _ => ih

theorem scoped_iff_emits {c : Circuit α} : c.Scoped n ↔ c.Emits (fun m k => k.Below m) n := by
  induction c generalizing n with
  | done _ => rfl
  | fail _ => rfl
  | witness _ _ _ _ _ ih => exact ih _
  | store _ _ ih => exact ih _
  | constrain _ _ _ _ ih => exact and_congr_right fun _ => ih

/-- Every variable has the value that its hint computes from the variables before it. -/
def Follows (z : Assignment) : Circuit α → ℕ → Prop
  | done _, _ => True
  | fail _, _ => False
  | witness s len _ hint next, n =>
    (∃ vs, hint (z.initial n) = .ok vs ∧ vs.length = len ∧
      z.window n (len * s.size) = vs.flatMap s.encode) ∧
    (next n).Follows z (n + len * s.size)
  | store x next, n => z n = x ∧ (next n).Follows z (n + 1)
  | constrain _ _ _ next, n => next.Follows z n

/-- Every hint gives its values, as long as the assignment follows the hints. -/
def Live (z : Assignment) : Circuit α → ℕ → Prop
  | done _, _ => True
  | fail _, _ => False
  | witness s len _ hint next, n =>
    ∃ vs, hint (z.initial n) = .ok vs ∧ vs.length = len ∧
      (z.window n (len * s.size) = vs.flatMap s.encode → (next n).Live z (n + len * s.size))
  | store x next, n => z n = x → (next n).Live z (n + 1)
  | constrain _ _ _ next, n => next.Live z n

/-- The circuit without its hints, which is all that compiling looks at. -/
def skeleton : Circuit α → Circuit α
  | done a => done a
  | fail e => fail e
  | witness s len loc _ next =>
    witness s len loc (fun _ => .error (.missingInput loc)) fun n => (next n).skeleton
  | store x next => store x fun n => (next n).skeleton
  | constrain cs label loc next => constrain cs label loc next.skeleton

theorem skeleton_bind (c : Circuit α) (f : α → Circuit β) :
    (c >>= f).skeleton = c.skeleton >>= fun a => (f a).skeleton := by
  change (c.bind f).skeleton = c.skeleton.bind _
  induction c with
  | done _ => rfl
  | fail _ => rfl
  | witness _ _ _ _ _ ih => simp [bind, skeleton, ih]
  | store _ _ ih => simp [bind, skeleton, ih]
  | constrain _ _ _ _ ih => simp [bind, skeleton, ih]

/-- Circuits that differ in their hints stay so under the same continuations. -/
theorem skeleton_bind_congr {c d : Circuit α} {f g : α → Circuit β} (h : c.skeleton = d.skeleton)
    (h' : ∀ a, (f a).skeleton = (g a).skeleton) : (c >>= f).skeleton = (d >>= g).skeleton := by
  rw [skeleton_bind, skeleton_bind, h]
  simp only [h']

@[simp] theorem outcome_skeleton (c : Circuit α) (n : ℕ) : c.skeleton.outcome n = c.outcome n := by
  induction c generalizing n with
  | done _ => rfl
  | fail _ => rfl
  | witness _ _ _ _ _ ih => exact ih _ _
  | store _ _ ih => exact ih _ _
  | constrain _ _ _ _ ih => exact ih _

theorem emits_skeleton {p : ℕ → Constraint → Prop} (c : Circuit α) (n : ℕ) :
    c.skeleton.Emits p n ↔ c.Emits p n := by
  induction c generalizing n with
  | done _ => rfl
  | fail _ => rfl
  | witness _ _ _ _ _ ih => exact ih _ _
  | store _ _ ih => exact ih _ _
  | constrain _ _ _ _ ih => exact and_congr_right fun _ => ih _

@[simp] theorem holds_skeleton (c : Circuit α) (n : ℕ) :
    c.skeleton.Holds z n ↔ c.Holds z n := by
  rw [holds_iff_emits, emits_skeleton, holds_iff_emits]

@[simp] theorem scoped_skeleton (c : Circuit α) (n : ℕ) :
    c.skeleton.Scoped n ↔ c.Scoped n := by
  rw [scoped_iff_emits, emits_skeleton, scoped_iff_emits]

theorem outcome_bind (c : Circuit α) (f : α → Circuit β) (n : ℕ) :
    (c.bind f).outcome n = (c.outcome n).bind fun r => (f r.1).outcome r.2 := by
  induction c generalizing n with
  | done _ => rfl
  | fail _ => rfl
  | witness _ _ _ _ _ ih => exact ih _ _
  | store _ _ ih => exact ih _ _
  | constrain _ _ _ _ ih => exact ih _

theorem outcome_le {c : Circuit α} {a : α} (h : c.outcome n = some (a, m)) : n ≤ m := by
  induction c generalizing n with
  | done _ => cases h; exact le_refl _
  | fail _ => cases h
  | witness s len _ _ _ ih => exact le_trans (Nat.le_add_right _ _) (ih _ h)
  | store _ _ ih => exact le_trans (Nat.le_succ _) (ih _ h)
  | constrain _ _ _ _ ih => exact ih h

section Bind
variable {c : Circuit α} {f : α → Circuit β} {a : α}

theorem emits_bind {p : ℕ → Constraint → Prop} : (c.bind f).Emits p n ↔
    c.Emits p n ∧ ∀ a m, c.outcome n = some (a, m) → (f a).Emits p m := by
  induction c generalizing n with
  | done a => simp [bind, Emits, outcome]
  | fail _ => simp [bind, Emits, outcome]
  | witness _ _ _ _ _ ih => exact ih _
  | store _ _ ih => exact ih _
  | constrain _ _ _ _ ih => simp only [bind, Emits, outcome, ih, and_assoc]

theorem emits_bind_of_outcome {p : ℕ → Constraint → Prop} (h : c.outcome n = some (a, m)) :
    (c.bind f).Emits p n ↔ c.Emits p n ∧ (f a).Emits p m := by
  rw [emits_bind, h]
  simp

theorem holds_of_bind (h : (c.bind f).Holds z n) : c.Holds z n :=
  holds_iff_emits.mpr (emits_bind.mp (holds_iff_emits.mp h)).1

theorem follows_of_bind (h : (c.bind f).Follows z n) : c.Follows z n := by
  induction c generalizing n with
  | done _ => trivial
  | fail _ => exact h
  | witness _ _ _ _ _ ih => exact ⟨h.1, ih _ h.2⟩
  | store _ _ ih => exact ⟨h.1, ih _ h.2⟩
  | constrain _ _ _ _ ih => exact ih h

theorem holds_bind (h : c.outcome n = some (a, m)) :
    (c.bind f).Holds z n ↔ c.Holds z n ∧ (f a).Holds z m := by
  simp only [holds_iff_emits, emits_bind_of_outcome h]

theorem scoped_bind (h : c.outcome n = some (a, m)) :
    (c.bind f).Scoped n ↔ c.Scoped n ∧ (f a).Scoped m := by
  simp only [scoped_iff_emits, emits_bind_of_outcome h]

theorem follows_bind (h : c.outcome n = some (a, m)) :
    (c.bind f).Follows z n ↔ c.Follows z n ∧ (f a).Follows z m := by
  induction c generalizing n with
  | done _ => cases h; simp [bind, Follows]
  | fail _ => cases h
  | witness _ _ _ _ _ ih => simp only [bind, Follows, ih _ h, and_assoc]
  | store _ _ ih => simp only [bind, Follows, ih _ h, and_assoc]
  | constrain _ _ _ _ ih => exact ih h

theorem live_bind (live : c.Live z n)
    (next : c.Follows z n → ∃ a m, c.outcome n = some (a, m) ∧ (f a).Live z m) :
    (c.bind f).Live z n := by
  induction c generalizing n with
  | done a =>
    obtain ⟨_, _, same, h⟩ := next trivial
    cases same
    exact h
  | fail _ => exact live.elim
  | witness _ _ _ _ _ ih =>
    obtain ⟨vs, hint, length, rest⟩ := live
    exact ⟨vs, hint, length, fun window =>
      ih _ (rest window) fun follows => next ⟨⟨vs, hint, length, window⟩, follows⟩⟩
  | store _ _ ih =>
    exact fun value => ih _ (live value) fun follows => next ⟨value, follows⟩
  | constrain _ _ _ _ ih => exact ih live next

end Bind

/-- Under the assignment, from variable `n` on, the constraints hold just when every variable
has the value of its hint, no hint fails, and the result then has the property. Constraints
cannot know the input of a circuit: that the assignment spells it may be `given`. -/
structure Exact (z : Assignment) (given : Prop) (c : Circuit α) (n : ℕ) (P : α → ℕ → Prop) :
    Prop where
  live : c.Live z n
  forced : given → c.Holds z n → c.Follows z n
  holds : c.Follows z n → c.Holds z n
  inScope : c.Follows z n → c.Scoped n
  result : c.Follows z n → ∃ a m, c.outcome n = some (a, m) ∧ P a m

namespace Exact
variable {given : Prop} {c : Circuit α} {P : α → ℕ → Prop}

theorem pure {a : α} (h : P a n) : Exact z given (pure a) n P where
  live := trivial
  forced _ _ := trivial
  holds _ := trivial
  inScope _ := trivial
  result _ := ⟨a, n, rfl, h⟩

theorem mono {Q : α → ℕ → Prop} (hc : Exact z given c n P)
    (weaker : ∀ a m, n ≤ m → P a m → Q a m) : Exact z given c n Q where
  live := hc.live
  forced := hc.forced
  holds := hc.holds
  inScope := hc.inScope
  result follows := by
    obtain ⟨a, m, outcome, h⟩ := hc.result follows
    exact ⟨a, m, outcome, weaker a m (outcome_le outcome) h⟩

theorem bind {f : α → Circuit β} {Q : β → ℕ → Prop} (hc : Exact z given c n P)
    (next : ∀ a m, n ≤ m → P a m → Exact z given (f a) m Q) :
    Exact z given (c >>= f) n Q := by
  have step (follows : c.Follows z n) :
      ∃ a m, c.outcome n = some (a, m) ∧ Exact z given (f a) m Q := by
    obtain ⟨a, m, outcome, h⟩ := hc.result follows
    exact ⟨a, m, outcome, next a m (outcome_le outcome) h⟩
  change Exact z given (c.bind f) n Q
  refine ⟨live_bind hc.live fun follows => ?_, fun input holds => ?_, fun follows => ?_,
    fun follows => ?_, fun follows => ?_⟩
  · obtain ⟨a, m, outcome, rest⟩ := step follows
    exact ⟨a, m, outcome, rest.live⟩
  · have first := hc.forced input (holds_of_bind holds)
    obtain ⟨a, m, outcome, rest⟩ := step first
    exact (follows_bind outcome).mpr
      ⟨first, rest.forced input ((holds_bind outcome).mp holds).2⟩
  all_goals
    have first := follows_of_bind follows
    obtain ⟨a, m, outcome, rest⟩ := step first
    have second := ((follows_bind outcome).mp follows).2
  · exact (holds_bind outcome).mpr ⟨hc.holds first, rest.holds second⟩
  · exact (scoped_bind outcome).mpr ⟨hc.inScope first, rest.inScope second⟩
  · rw [outcome_bind, outcome]
    exact rest.result second

end Exact

/-- Whatever the circuit returns has the property, whichever variables it is given. -/
def Returns (P : α → Prop) : Circuit α → Prop
  | done a => P a
  | fail _ => True
  | witness _ _ _ _ next => ∀ n, (next n).Returns P
  | store _ next => ∀ n, (next n).Returns P
  | constrain _ _ _ next => next.Returns P

section Returns
variable {c : Circuit α} {f g : α → Circuit β} {P : α → Prop} {Q : β → Prop}

theorem returns_of_forall (h : ∀ a, P a) (c : Circuit α) : c.Returns P := by
  induction c with
  | done a => exact h a
  | fail _ => trivial
  | witness _ _ _ _ _ ih => exact ih
  | store _ _ ih => exact ih
  | constrain _ _ _ _ ih => exact ih

theorem Returns.bind (h : c.Returns P) (next : ∀ a, P a → (f a).Returns Q) :
    (c >>= f).Returns Q := by
  change (c.bind f).Returns Q
  induction c with
  | done a => exact next a h
  | fail _ => trivial
  | witness _ _ _ _ _ ih => exact fun n => ih n (h n)
  | store _ _ ih => exact fun n => ih n (h n)
  | constrain _ _ _ _ ih => exact ih h

theorem Returns.weaken {P' : α → Prop} (h : c.Returns P) (weaker : ∀ a, P a → P' a) :
    c.Returns P' := by
  rw [← bind_pure c]
  exact h.bind weaker

theorem returns_bind (next : ∀ a, (f a).Returns Q) : (c >>= f).Returns Q :=
  (returns_of_forall (fun _ => trivial) c).bind (P := fun _ => True) fun a _ => next a

/-- Continuations that agree on all that a circuit returns go on in the same way. -/
theorem Returns.bind_congr (h : c.Returns P) (same : ∀ a, P a → f a = g a) :
    c >>= f = c >>= g := by
  change c.bind f = c.bind g
  induction c with
  | done a => exact same a h
  | fail _ => rfl
  | witness _ _ _ _ _ ih => simp only [Circuit.bind, fun n => ih n (h n)]
  | store _ _ ih => simp only [Circuit.bind, fun n => ih n (h n)]
  | constrain _ _ _ _ ih => simp only [Circuit.bind, ih h]

theorem Returns.mapM {f : α → Circuit β} (step : ∀ a, (f a).Returns Q) (as : List α) :
    (as.mapM f).Returns fun bs => bs.length = as.length ∧ ∀ b ∈ bs, Q b := by
  induction as with
  | nil => exact ⟨rfl, by simp⟩
  | cons a as ih =>
    rw [List.mapM_cons]
    refine (step a).bind fun b first => ih.bind fun bs rest => ?_
    exact ⟨congrArg (· + 1) rest.1, List.forall_mem_cons.mpr ⟨first, rest.2⟩⟩

theorem Returns.foldlM {f : α → β → Circuit α} (step : ∀ a b, P a → (f a b).Returns P) {a : α}
    (start : P a) (bs : List β) : (bs.foldlM f a).Returns P := by
  induction bs generalizing a with
  | nil => exact start
  | cons b bs ih =>
    rw [List.foldlM_cons]
    exact (step a b start).bind fun a' kept => ih kept

end Returns

/-- A relation between wires and values that more variables do not break. -/
def Stable {ω υ : Type} (R : ℕ → ω → υ → Prop) : Prop :=
  ∀ n m w v, n ≤ m → R n w v → R m w v

theorem Stable.mono {ω υ : Type} {R : ℕ → ω → υ → Prop} (stable : Stable R) {w : ω} {v : υ}
    (le : n ≤ m) (h : R n w v) : R m w v := stable n m w v le h

theorem Stable.list {ω υ : Type} {R : ℕ → ω → υ → Prop} (stable : Stable R) :
    Stable fun n => List.Forall₂ (R n) :=
  fun _ _ _ _ le h => h.imp fun _ _ => stable.mono le

end RankOne.Circuit
