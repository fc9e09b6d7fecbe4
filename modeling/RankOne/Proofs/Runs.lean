import RankOne.Proofs.BitLogic
import RankOne.Proofs.Modes

/-! Gadgets run in the middle of a session. Where every variable has a value, an exact circuit runs
to its end; a circuit that compiles adds rows which demand what its constraints do. What a gadget
does once its operands stand for given values follows from every way of judging it. -/
namespace RankOne
variable {α : Type} {z : Assignment} {s : Session} {checked : Bool}

namespace Session

/-- Any assignment that continues the values of a session gives them back. -/
theorem initial_of_agree (filled : s.Filled)
    (agree : Circuit.Agree s.nextVar (.ofWitness s.values) z) : z.initial s.nextVar = s.values := by
  rw [agree.initial, ← filled, Assignment.initial_ofWitness]

/-- A witness session is one along its values, whatever the values past them. -/
theorem along_of_agree (mode : s.mode = .witness checked) (filled : s.Filled)
    (agree : Circuit.Agree s.nextVar (.ofWitness s.values) z) :
    s = .along checked z s.rows s.nextVar := by
  rw [along, initial_of_agree filled agree, ← mode]

end Session

/-- The value of an expression is a matter of the variables that it is about. -/
theorem Expr.eval_of_agree {e : Expr} {z' : Assignment} {n : ℕ} (h : e.Below n)
    (agree : Circuit.Agree n z z') : e.eval z' = e.eval z := by
  induction e with
  | const c => rfl
  | var i => exact agree i h
  | add a b iha ihb => rw [eval, eval, iha h.1, ihb h.2]
  | scale s e ih => rw [eval, eval, ih h]

namespace Circuit
variable {c : Circuit α}

theorem run_exact {P : Assignment → α → ℕ → Prop} {given : Assignment → Prop}
    (mode : s.mode = .witness checked) (filled : s.Filled)
    (exact : ∀ z, Agree s.nextVar (.ofWitness s.values) z →
      c.Exact z (given z) s.nextVar (P z)) :
    ∃ z a s', c.run s = (.ok a, s') ∧ s'.values = z.initial s'.nextVar ∧ P z a s'.nextVar := by
  obtain ⟨z, agree, follows⟩ := exists_follows fun z agree => (exact z agree).live
  have judged := exact z agree
  obtain ⟨a, m, outcome, property⟩ := judged.result follows
  obtain ⟨a', m', outcome', run⟩ := run_along checked s.rows follows fun _ =>
    ⟨judged.inScope follows, judged.holds follows⟩
  rw [outcome] at outcome'
  cases outcome'
  rw [← Session.along_of_agree mode filled agree] at run
  exact ⟨z, a, _, run, rfl, property⟩

/-- A circuit that is exact for some values of the variables before it compiles. -/
theorem run_compile_exact {P : Assignment → α → ℕ → Prop} {given : Assignment → Prop}
    (mode : s.mode = .compile)
    (exact : ∀ z', Agree s.nextVar z z' → c.Exact z' (given z') s.nextVar (P z')) :
    ∃ a s', c.run s = (.ok a, s') := by
  obtain ⟨z', agree, follows⟩ := exists_follows fun z' agree => (exact z' agree).live
  have judged := exact z' agree
  obtain ⟨a, m, outcome, -⟩ := judged.result follows
  exact ⟨a, run_compile_ok mode outcome (judged.holds follows)⟩

theorem run_compiles {P : α → ℕ → Prop} (mode : s.mode = .compile)
    (compiles : Logic.compiles.judges c s.nextVar P) :
    ∃ a s', c.run s = (.ok a, s') ∧ c.outcome s.nextVar = some (a, s'.nextVar) ∧
      s.Adds s' (c.Holds · s.nextVar) ∧ P a s'.nextVar := by
  obtain ⟨emits, a, m, outcome, property⟩ := compiles
  obtain ⟨s', run⟩ := run_compilable mode outcome emits
  obtain ⟨outcome', adds, -⟩ := adds_of_run mode run
  rw [outcome] at outcome'
  cases outcome'
  exact ⟨a, s', run, outcome, adds, property⟩

/-- Any two assignments that satisfy the rows which a circuit has added are judged by them. -/
theorem pinned_of_run {a : α} {s' : Session} (mode : s.mode = .compile)
    (run : c.run s = (.ok a, s')) :
    ∃ rows, s'.rows.toList = s.rows.toList ++ rows ∧
      ∀ {z z' : Assignment} {P : α → ℕ → Prop}, (∀ row ∈ rows, row.Holds z) →
        (∀ row ∈ rows, row.Holds z') → (Logic.pins z z').judges c s.nextVar P →
        (∀ i, s.nextVar ≤ i → i < s'.nextVar → z i = z' i) ∧ P a s'.nextVar := by
  obtain ⟨outcome, ⟨rows, appended, meaning⟩, -⟩ := adds_of_run mode run
  refine ⟨rows, appended, fun {z z' P} satisfied satisfied' judged => ?_⟩
  exact judged ((meaning z).mp satisfied) ((meaning z').mp satisfied') a s'.nextVar outcome

end Circuit

open Circuit

/-- Data of a circuit that stand for values: to a judgement, to a witness that gives the values of
variables, under an assignment, and without variables. -/
structure Carrier (α υ : Type) where
  carries (L : BitLogic) (n : ℕ) : α → υ → Prop
  reads (w : Witness) : α → υ → Prop
  spells (z : Assignment) : α → υ → Prop
  folded : α → υ → Prop
  exact_iff {z : Assignment} {n : ℕ} {a : α} {v : υ} :
    carries (.exact z True) n a v ↔ reads (z.initial n) a v
  pins_iff {z z' : Assignment} {n : ℕ} {a : α} {v : υ} :
    carries (.pins z z') n a v ↔ spells z a v ∧ spells z' a v
  folds_iff {n : ℕ} {a : α} {v : υ} : carries .folds n a v ↔ folded a v

def Carrier.comap {β υ : Type} (K : Carrier α υ) (f : β → α) : Carrier β υ where
  carries L n b := K.carries L n (f b)
  reads w b := K.reads w (f b)
  spells z b := K.spells z (f b)
  folded b := K.folded (f b)
  exact_iff := K.exact_iff
  pins_iff := K.pins_iff
  folds_iff := K.folds_iff

def Expr.single : Carrier Expr Fr where
  carries L n := L.carries n
  reads w e v := e.read w = .ok v
  spells z e v := e.eval z = v
  folded e v := e = .const v
  exact_iff := Expr.read_initial_iff.symm
  pins_iff := Iff.rfl
  folds_iff := Iff.rfl

def Expr.list : Carrier (List Expr) (List Fr) where
  carries L n := List.Forall₂ (L.carries n)
  reads w es vs := es.mapM (Expr.read w) = .ok vs
  spells z es vs := es.map (Expr.eval z) = vs
  folded es vs := es = vs.map Expr.const
  exact_iff {z n es vs} := by
    rw [mapM_ok_iff]
    simp only [Expr.read_initial_iff]
    rfl
  pins_iff {z z' n es vs} := by
    rw [← List.forall₂_eq_eq_eq, List.forall₂_map_left_iff, List.forall₂_map_left_iff]
    exact ⟨fun h => ⟨h.imp fun _ _ => And.left, h.imp fun _ _ => And.right⟩,
      fun h => h.1.mp (fun _ _ => And.intro) h.2⟩
  folds_iff {n es vs} := by
    rw [← List.forall₂_eq_eq_eq, List.forall₂_map_right_iff]
    rfl

namespace Circuit
variable {c : Circuit α}

section Judged
variable {ω υ ρ : Type} {K : Carrier ω υ} {R : Carrier α ρ} {o : ω} {v : υ} {r : ρ}
  (judged : ∀ (L : BitLogic) (n : ℕ), K.carries L n o v → L.judges c n fun a m => R.carries L m a r)
include judged

/-- A witness that gives the operands their values is taken to one that gives the result its. -/
theorem generates_of_judges (mode : s.mode = .witness checked) (filled : s.Filled)
    (given : K.reads s.values o v) : ∃ a s', c.run s = (.ok a, s') ∧ R.reads s'.values a r := by
  have exact (z : Assignment) (agree : Agree s.nextVar (.ofWitness s.values) z) :
      Exact z True c s.nextVar fun a m => R.carries (.exact z True) m a r := by
    rw [← Session.initial_of_agree filled agree] at given
    exact judged (.exact z True) s.nextVar (K.exact_iff.mpr given)
  obtain ⟨z, a, s', run, values, carried⟩ := run_exact mode filled exact
  exact ⟨a, s', run, by rw [values]; exact R.exact_iff.mp carried⟩

/-- Rows added by a compilation force the value of the result and of every new variable. -/
theorem forces_of_judges {a : α} {s' : Session} (mode : s.mode = .compile)
    (run : c.run s = (.ok a, s')) :
    ∃ rows, s'.rows.toList = s.rows.toList ++ rows ∧
      (∀ z, (∀ row ∈ rows, row.Holds z) → K.spells z o v → R.spells z a r) ∧
      ∀ z z', (∀ row ∈ rows, row.Holds z) → (∀ row ∈ rows, row.Holds z') →
        K.spells z o v → K.spells z' o v → ∀ i, s.nextVar ≤ i → i < s'.nextVar → z i = z' i := by
  obtain ⟨rows, appended, pinned⟩ := pinned_of_run mode run
  have settled {z z' : Assignment} (satisfied : ∀ row ∈ rows, row.Holds z)
      (satisfied' : ∀ row ∈ rows, row.Holds z') (given : K.spells z o v)
      (given' : K.spells z' o v) :=
    pinned satisfied satisfied' (judged (.pins z z') s.nextVar (K.pins_iff.mpr ⟨given, given'⟩))
  refine ⟨rows, appended, fun z satisfied given => ?_,
    fun z z' satisfied satisfied' given given' => ?_⟩
  · exact (R.pins_iff.mp (settled satisfied satisfied given given).2).1
  · exact (settled satisfied satisfied' given given').1

theorem folds_of_judges (constants : K.folded o v) :
    ∃ a, R.folded a r ∧ ∀ s : Session, c.run s = (.ok a, s) := by
  obtain ⟨a, rfl, carried⟩ := judged .folds 0 (K.folds_iff.mpr constants)
  exact ⟨a, R.folds_iff.mp carried, fun s => rfl⟩

end Judged
end Circuit
end RankOne
