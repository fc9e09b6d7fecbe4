import RankOne.Proofs.Json.Record

/-! Readers of one text. A reader with checks is compared with one that leaves them out: what the
first accepts, the second reads up to the same place. -/
namespace RankOne.Json
variable {α β γ δ σ τ σ' τ' : Type}

/-- What `r` reads is read by `r'` too, as the image of the value. -/
def Reader.Refines (v : α → β) (r : Reader α) (r' : Reader β) : Prop :=
  ∀ text a rest, r text = .ok (a, rest) → r' text = .ok (v a, rest)

namespace Reader.Refines
variable {v : α → β} {w : γ → δ}

theorem refl (r : Reader α) : Refines id r r := fun _ _ _ h => h

theorem malformed {r : Reader β} : Refines v Reader.malformed r := fun _ _ _ h => by cases h

theorem pure (a : α) : Refines v (pure a) (pure (v a)) := by
  intro text _ rest h
  cases h
  rfl

theorem bind {r : Reader α} {r' : Reader β} {f : α → Reader γ} {f' : β → Reader δ}
    (h : Refines v r r') (next : ∀ a, Refines w (f a) (f' (v a))) :
    Refines w (r >>= f) (r' >>= f') := by
  intro text c rest read
  obtain ⟨a, text', first, second⟩ := of_bind_ok read
  rw [bind_ok (h _ _ _ first)]
  exact next a _ _ _ second

theorem and_then {r : Reader α} {f : α → Reader γ} {f' : α → Reader δ}
    (next : ∀ a, Refines w (f a) (f' a)) : Refines w (r >>= f) (r >>= f') :=
  bind (refl r) next

theorem run {r : Reader α} {r' : Reader β} (h : Refines v r r') {text : String} {a : α}
    (read : r.run text = .ok a) : r'.run text = .ok (v a) := by
  obtain ⟨⟨b, rest⟩, whole, read⟩ := exceptBind_ok read
  rw [Reader.run, h _ _ _ whole]
  change (if rest.all isBlank then _ else _) = _ at read ⊢
  split at read
  · cases read
    rw [if_pos ‹_›]
    rfl
  · cases read

end Reader.Refines

/-- One member reads what the other one reads, into the images of its slots. -/
structure Member.Refines (u : σ → τ) (m : Member σ) (m' : Member τ) : Prop where
  name : m.name = m'.name
  given (s : σ) : m'.given (u s) = m.given s
  read (s : σ) : Reader.Refines u (m.read s) (m'.read (u s))

/-- One record is read like the other one, as far as slots and values have images. -/
structure Fields.Refines (u : σ → τ) (v : α → β) (f : Fields σ α) (g : Fields τ β) : Prop where
  members : List.Forall₂ (Member.Refines u) f.members g.members
  empty : u f.empty = g.empty
  finish {s : σ} {a : α} : f.finish s = .ok a → g.finish (u s) = .ok (v a)

namespace Fields
variable {u : σ → τ} {v : α → β} {u' : σ' → τ'} {w : γ → δ} {ms : List (Member σ)}
  {ms' : List (Member τ)}

theorem memberFrom_refines (h : List.Forall₂ (Member.Refines u) ms ms') (name : List Char) (s : σ) :
    Reader.Refines u (memberFrom ms name s) (memberFrom ms' name (u s)) := by
  induction h with
  | nil => exact Reader.Refines.and_then fun _ => Reader.Refines.pure s
  | @cons m m' ms ms' first _ ih =>
    unfold memberFrom at ih ⊢
    rw [List.find?_cons, List.find?_cons, first.name]
    by_cases this : m'.name = name
    · simp only [this, decide_true, first.given]
      split
      · exact Reader.Refines.malformed
      · exact first.read s
    · simpa only [this, decide_false] using ih

theorem membersFrom_refines (h : List.Forall₂ (Member.Refines u) ms ms') (fuel : ℕ) (s : σ) :
    Reader.Refines u (membersFrom ms fuel s) (membersFrom ms' fuel (u s)) := by
  induction fuel generalizing s with
  | zero => exact Reader.Refines.malformed
  | succ fuel ih =>
    rw [membersFrom_succ, membersFrom_succ]
    refine Reader.Refines.and_then fun name => Reader.Refines.and_then fun _ => ?_
    refine Reader.Refines.bind (memberFrom_refines h name s) fun s' => ?_
    refine Reader.Refines.and_then fun c => ?_
    split
    · exact ih s'
    · exact Reader.Refines.pure s'
    · exact Reader.Refines.malformed

theorem elementsFrom_refines (h : List.Forall₂ (Member.Refines u) ms ms') (s : σ) :
    Reader.Refines u (elementsFrom ms s) (elementsFrom ms' (u s)) := by
  induction h generalizing s with
  | nil => exact Reader.Refines.and_then fun _ => Reader.Refines.pure s
  | @cons m m' ms ms' first others ih =>
    refine Reader.Refines.bind (first.read s) fun s' => Reader.Refines.and_then fun c => ?_
    by_cases close : c = ']'
    · rw [close]
      exact Reader.Refines.pure s'
    by_cases more : c = ','
    · rw [more]
      cases others with
      | nil => exact Reader.Refines.malformed
      | cons => exact ih s'
    · split
      · exact absurd rfl close
      · exact absurd rfl more
      · exact Reader.Refines.malformed

variable {f : Fields σ α} {g : Fields τ β}

theorem Refines.slots (h : f.Refines u v g) : Reader.Refines u f.slots g.slots := by
  refine Reader.Refines.and_then fun c => ?_
  have nothing (d : Char) : Reader.Refines u (do Reader.expect d; return f.empty)
      (do Reader.expect d; return g.empty) := by
    rw [← h.empty]
    exact Reader.Refines.and_then fun _ => Reader.Refines.pure f.empty
  split
  · refine Reader.Refines.and_then fun c => ?_
    split
    · exact nothing ']'
    · rw [← h.empty]
      exact elementsFrom_refines h.members f.empty
  · refine Reader.Refines.and_then fun c => ?_
    split
    · exact nothing '\x7d'
    · rw [← h.empty]
      exact Reader.Refines.and_then fun s => membersFrom_refines h.members s.length f.empty
  · exact Reader.Refines.malformed

theorem Refines.record (h : f.Refines u v g) : Reader.Refines v f.record g.record := by
  refine Reader.Refines.bind h.slots fun s => ?_
  cases finished : f.finish s with
  | error e => exact fun _ _ _ read => by cases read
  | ok a => rw [h.finish finished]; exact Reader.Refines.pure a

theorem Refines.refl (f : Fields σ α) : f.Refines id id f where
  members := List.forall₂_same.mpr fun _ _ => ⟨rfl, fun _ => rfl, fun _ => .refl _⟩
  empty := rfl
  finish := id

theorem Refines.slot {r : Reader α} {r' : Reader β} (h : Reader.Refines v r r')
    (name : List Char) {absent : Except ReadError α} {absent' : Except ReadError β}
    (same : ∀ a, absent = .ok a → absent' = .ok (v a)) :
    (slot name r absent).Refines (Option.map v) v (slot name r' absent') where
  members := by
    refine .cons ⟨rfl, fun s => Option.isSome_map, fun s => ?_⟩ .nil
    exact Reader.Refines.bind h fun a => .pure (some a)
  empty := rfl
  finish {s a} finished := by
    cases s with
    | none => exact same a finished
    | some b => cases finished; rfl

theorem Refines.required {r : Reader α} {r' : Reader β} (h : Reader.Refines v r r')
    (name : List Char) : (required name r).Refines (Option.map v) v (required name r') :=
  Refines.slot h name fun _ absent => nomatch absent

theorem Refines.and {f' : Fields σ' γ} {g' : Fields τ' δ} (h : f.Refines u v g)
    (h' : f'.Refines u' w g') :
    (f.and f').Refines (Prod.map u u') (Prod.map v w) (g.and g') where
  members := by
    refine List.rel_append ?_ ?_
    · rw [List.forall₂_map_left_iff, List.forall₂_map_right_iff]
      refine h.members.imp fun m m' member => ⟨member.name, fun s => member.given s.1, fun s => ?_⟩
      exact Reader.Refines.bind (member.read s.1) fun a => .pure (a, s.2)
    · rw [List.forall₂_map_left_iff, List.forall₂_map_right_iff]
      refine h'.members.imp fun m m' member => ⟨member.name, fun s => member.given s.2, fun s => ?_⟩
      exact Reader.Refines.bind (member.read s.2) fun a => .pure (s.1, a)
  empty := by
    change (u f.empty, u' f'.empty) = _
    rw [h.empty, h'.empty]
    rfl
  finish {s c} finished := by
    obtain ⟨a, first, finished⟩ := exceptBind_ok finished
    obtain ⟨b, second, finished⟩ := exceptBind_ok finished
    cases finished
    change (do return (← g.finish (u s.1), ← g'.finish (u' s.2))) = _
    rw [h.finish first, h'.finish second]
    rfl

theorem Refines.andThen (h : f.Refines u v g) {build : α → Except ReadError γ}
    {build' : β → Except ReadError δ} (same : ∀ a c, build a = .ok c → build' (v a) = .ok (w c)) :
    (f.andThen build).Refines u w (g.andThen build') where
  members := h.members
  empty := h.empty
  finish {s c} finished := by
    obtain ⟨a, first, second⟩ := exceptBind_ok finished
    change g.finish (u s) >>= build' = _
    rw [h.finish first]
    exact same a c second

end Fields
end RankOne.Json
