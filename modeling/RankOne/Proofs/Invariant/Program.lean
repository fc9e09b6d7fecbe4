import RankOne.Program.Operation
import RankOne.Proofs.Invariant.Ciphers

/-! Every operation of a program keeps every invariant of wires, as long as the invariant holds of
the results that it refers to and of the variables that it names. -/
namespace RankOne

namespace Program

mutual

/-- The variables named by their index. -/
def Operand.variables : Operand → List ℕ
  | .const _ => []
  | .var i => [i]
  | .ref _ => []
  | .sum es => Operand.variablesOfAll es
  | .difference es => Operand.variablesOfAll es
  | .negation e => e.variables
  | .scaled _ e => e.variables
  | .combination terms => Operand.variablesOfTerms terms
  | .total es => Operand.variablesOfAll es
  | .rawAdd a b => a.variables ++ b.variables
  | .rawScale _ e => e.variables

def Operand.variablesOfAll : List Operand → List ℕ
  | [] => []
  | e :: es => e.variables ++ Operand.variablesOfAll es

def Operand.variablesOfTerms : List (Fr × Operand) → List ℕ
  | [] => []
  | (_, e) :: terms => e.variables ++ Operand.variablesOfTerms terms

end

def Operands.variables : Operands → List ℕ
  | .each es => Operand.variablesOfAll es
  | .elements _ => []

def Condition.variables : Condition → List ℕ
  | .isBit x => x.variables
  | .equal x y => x.variables ++ y.variables
  | .square x y => x.variables ++ y.variables
  | .product a b c => a.variables ++ b.variables ++ c.variables

def Operation.variables : Operation → List ℕ
  | .expr e | .square e | .bitUnchecked e | .bitsOfExpr e _ | .pow e _ => e.variables
  | .mul a b _ | .assertEquals a b | .feistel _ a b => a.variables ++ b.variables
  | .assert conditions _ => conditions.flatMap Condition.variables
  | .sponge _ inputs _ => inputs.variables
  | _ => []

end Program

namespace WireInvariant
open Program
variable {W : WireInvariant} {n m : ℕ} {results : Results}

mutual

def okValue (W : WireInvariant) (n : ℕ) : Value → Prop
  | .unit => True
  | .field x => W.Ok n x
  | .bit b => W.Ok n b
  | .bits bs => W.Ok n bs
  | .word w => W.Ok n w
  | .list vs => okValues W n vs

def okValues (W : WireInvariant) (n : ℕ) : List Value → Prop
  | [] => True
  | v :: vs => okValue W n v ∧ okValues W n vs

end

mutual

theorem okValue_mono {v : Value} (le : n ≤ m) (h : okValue W n v) : okValue W m v := by
  cases v with
  | unit => trivial
  | field x => exact Ok.mono (a := x) h le
  | bit b => exact Ok.mono (a := b) h le
  | bits bs => exact Ok.mono (a := bs) h le
  | word w => exact Ok.mono (a := w) h le
  | list vs => exact okValues_mono le h

theorem okValues_mono {vs : List Value} (le : n ≤ m) (h : okValues W n vs) : okValues W m vs := by
  cases vs with
  | nil => trivial
  | cons v vs => exact ⟨okValue_mono le h.1, okValues_mono le h.2⟩

end

instance : Wired Ref := ⟨fun _ _ _ => True, fun _ h => h⟩

instance : Wired Value := ⟨okValue, okValue_mono⟩

instance : Wired Results := ⟨fun W n rs => W.Ok n rs.toList, fun le h => Ok.mono h le⟩

theorem ok_values {vs : List Value} : W.Ok n (Value.list vs) ↔ W.Ok n vs := by
  change okValues W n vs ↔ W.Ok n vs
  induction vs with
  | nil => simp [okValues]
  | cons v vs ih =>
    rw [ok_cons, ← ih]
    rfl

theorem ok_push {v : Value} (h : W.Ok n results) (hv : W.Ok n v) : W.Ok n (results.push v) := by
  change W.Ok n (results.push v).toList
  rw [Array.toList_push]
  exact ok_append.mpr ⟨h, ok_cons.mpr ⟨hv, ok_nil⟩⟩

theorem ok_component {v part : Value} {i : ℕ} (h : W.Ok n v) (found : v.component? i = some part) :
    W.Ok n part := by
  have bit {bs : Bits} (hb : W.Ok n bs) (found : bs[i]?.map Value.bit = some part) :
      W.Ok n part := by
    obtain ⟨b, inside, rfl⟩ := Option.map_eq_some_iff.mp found
    exact hb.get inside
  cases v with
  | bits bs => exact bit h found
  | word w => exact bit h found
  | list vs => exact (ok_values.mp h).get found
  | unit => cases found
  | field x => cases found
  | bit b => cases found

theorem ok_path {path : List ℕ} {v part : Value} (h : W.Ok n v)
    (found : path.foldlM Value.component? v = some part) : W.Ok n part := by
  induction path generalizing v with
  | nil => cases found; exact h
  | cons i path ih =>
    rw [List.foldlM_cons] at found
    obtain ⟨next, first, rest⟩ := Option.bind_eq_some_iff.mp found
    exact ih (ok_component h first) rest

/-- What resolves to a wire gives one that satisfies the invariant. -/
def Resolves {α : Type} [Wired α] (W : WireInvariant) (n : ℕ) (x : Except CompilationError α) :
    Prop := ∀ a, x = .ok a → W.Ok n a

section Resolves
variable {α β : Type} [Wired α] [Wired β]

theorem Resolves.ok {a : α} (h : W.Ok n a) : W.Resolves n (.ok a) := by rintro _ ⟨⟩; exact h

theorem Resolves.error (e : CompilationError) : W.Resolves n (.error e : Except _ α) := nofun

theorem Resolves.bind {x : Except CompilationError α} {f : α → Except CompilationError β}
    (hx : W.Resolves n x) (next : ∀ a, W.Ok n a → W.Resolves n (f a)) : W.Resolves n (x >>= f) := by
  intro b h
  obtain ⟨a, given, rest⟩ := exceptBind_ok h
  exact next a (hx a given) b rest

theorem Resolves.mapM {f : α → Except CompilationError β} {as : List α} (h : W.Ok n as)
    (step : ∀ a, W.Ok n a → W.Resolves n (f a)) : W.Resolves n (as.mapM f) := by
  induction as with
  | nil => exact .ok ok_nil
  | cons a as ih =>
    obtain ⟨head, tail⟩ := ok_cons.mp h
    rw [List.mapM_cons]
    exact (step a head).bind fun b hb => (ih tail).bind fun bs hbs => .ok (ok_cons.mpr ⟨hb, hbs⟩)

/-- Resolving operands allocates nothing. -/
theorem Resolves.lift {x : Except CompilationError α} {f : α → Circuit β} (hx : W.Resolves n x)
    (next : ∀ a, W.Ok n a → W.Keeps (f a) n) : W.Keeps (liftM x >>= f) n := by
  cases x with
  | error e => exact Keeps.reject e
  | ok a => exact next a (hx a rfl)

theorem Resolves.keeps {x : Except CompilationError α} (hx : W.Resolves n x) :
    W.Keeps (liftM x : Circuit α) n := by
  cases x with
  | error e => exact Keeps.reject e
  | ok a => exact Keeps.pure (hx a rfl)

end Resolves

section Values
variable {v : Value}

theorem resolves_toBit (h : W.Ok n v) : W.Resolves n v.toBit := by
  cases v with
  | bit b => exact .ok h
  | _ => exact .error _

theorem resolves_toBits (h : W.Ok n v) : W.Resolves n v.toBits := by
  cases v with
  | bits bs => exact .ok h
  | _ => exact .error _

theorem resolves_toWord (h : W.Ok n v) : W.Resolves n v.toWord := by
  cases v with
  | word w => exact .ok h
  | _ => exact .error _

theorem resolves_toExpr (h : W.Ok n v) : W.Resolves n v.toExpr := by
  cases v with
  | field x => exact .ok h
  | bit b => exact .ok (W.ofBit h)
  | _ => exact .error _

theorem resolves_toList (h : W.Ok n v) : W.Resolves n v.toList := by
  cases v with
  | list vs => exact .ok (ok_values.mp h)
  | _ => exact .error _

end Values

section References
variable (h : W.Ok n results)
include h

theorem resolves_value (ref : Ref) : W.Resolves n (ref.value results) := by
  intro v given
  unfold Ref.value at given
  split at given
  · rename_i found
    cases given
    obtain ⟨step, inside, path⟩ := Option.bind_eq_some_iff.mp found
    exact ok_path (h step (Array.mem_toList_iff.mpr (Array.mem_of_getElem? inside))) path
  · cases given

theorem resolves_bit (ref : Ref) : W.Resolves n (ref.bit results) :=
  (resolves_value h ref).bind fun _ => resolves_toBit

theorem resolves_bits (ref : Ref) : W.Resolves n (ref.bits results) :=
  (resolves_value h ref).bind fun _ => resolves_toBits

theorem resolves_word (ref : Ref) : W.Resolves n (ref.word results) :=
  (resolves_value h ref).bind fun _ => resolves_toWord

theorem resolves_values (refs : Refs) : W.Resolves n (refs.values results) := by
  cases refs with
  | each refs =>
    have wires : W.Ok n refs := fun _ _ => trivial
    exact Resolves.mapM wires fun ref _ => resolves_value h ref
  | elements ref => exact (resolves_value h ref).bind fun _ => resolves_toList

theorem resolves_bitsOfRefs (refs : Refs) : W.Resolves n (refs.bits results) :=
  (resolves_values h refs).bind fun _ hv => .mapM hv fun _ => resolves_toBits

theorem resolves_bitsLists (refs : Refs) : W.Resolves n (refs.bitsLists results) :=
  (resolves_values h refs).bind fun _ hv => .mapM hv fun _ hv =>
    (resolves_toList hv).bind fun _ hv => .mapM hv fun _ => resolves_toBits

theorem resolves_words (refs : Refs) : W.Resolves n (refs.words results) :=
  (resolves_values h refs).bind fun _ hv => .mapM hv fun _ => resolves_toWord

theorem resolves_exprsOfRefs (refs : Refs) : W.Resolves n (refs.exprs results) :=
  (resolves_values h refs).bind fun _ hv => .mapM hv fun _ => resolves_toExpr

end References

section Operands

/-- The invariant holds of variables that are named by their index. -/
def Named (W : WireInvariant) (n : ℕ) (indices : List ℕ) : Prop :=
  ∀ i ∈ indices, W.Ok n (Expr.var i)

theorem named_append {is js : List ℕ} : W.Named n (is ++ js) ↔ W.Named n is ∧ W.Named n js :=
  List.forall_mem_append

theorem Named.mono {is : List ℕ} (h : W.Named n is) (le : n ≤ m) : W.Named m is :=
  fun i member => (h i member).mono le

instance : Wired Condition :=
  ⟨fun W n condition => W.Named n condition.variables, fun le h => Named.mono h le⟩

theorem resolves_join {op : Expr → Expr → Expr}
    (keeps : ∀ a b, W.Ok n a → W.Ok n b → W.Ok n (op a b)) {es : List Expr} (he : W.Ok n es) :
    W.Resolves n (Operand.join op es) := by
  cases es with
  | nil => exact .error _
  | cons e es =>
    obtain ⟨first, rest⟩ := ok_cons.mp he
    refine .ok ?_
    induction es generalizing e with
    | nil => exact first
    | cons e' es ih =>
      obtain ⟨second, rest⟩ := ok_cons.mp rest
      have joined := keeps e e' first second
      exact ih (op e e') (ok_cons.mpr ⟨joined, rest⟩) joined rest

mutual

theorem resolves_expr (h : W.Ok n results) (e : Operand) (named : W.Named n e.variables) :
    W.Resolves n (e.expr results) := by
  cases e with
  | const c => exact .ok (W.const n c)
  | var i => exact .ok (named i (List.mem_singleton_self i))
  | ref r => exact (resolves_value h r).bind fun _ => resolves_toExpr
  | sum es => exact (resolves_exprs h es named).bind fun _ => resolves_join fun _ _ => ok_plus
  | difference es =>
    exact (resolves_exprs h es named).bind fun _ => resolves_join fun _ _ => ok_minus
  | negation e => exact (resolves_expr h e named).bind fun _ he => .ok (ok_negate he)
  | scaled s e => exact (resolves_expr h e named).bind fun _ he => .ok (ok_scaleBy he s)
  | combination terms =>
    exact (resolves_weighted h terms named).bind fun _ ht =>
      .ok (ok_linearCombination fun t member => (ht t member).2)
  | total es => exact (resolves_exprs h es named).bind fun _ he => .ok (ok_sum he)
  | rawAdd a b =>
    obtain ⟨left, right⟩ := named_append.mp named
    exact (resolves_expr h a left).bind fun _ ha =>
      (resolves_expr h b right).bind fun _ hb => .ok (W.add ha hb)
  | rawScale s e => exact (resolves_expr h e named).bind fun _ he => .ok (W.scale s he)

theorem resolves_exprs (h : W.Ok n results) (es : List Operand)
    (named : W.Named n (Operand.variablesOfAll es)) : W.Resolves n (Operand.exprs results es) := by
  cases es with
  | nil => exact .ok ok_nil
  | cons e es =>
    obtain ⟨first, rest⟩ := named_append.mp named
    exact (resolves_expr h e first).bind fun _ he =>
      (resolves_exprs h es rest).bind fun _ hes => .ok (ok_cons.mpr ⟨he, hes⟩)

theorem resolves_weighted (h : W.Ok n results) (terms : List (Fr × Operand))
    (named : W.Named n (Operand.variablesOfTerms terms)) :
    W.Resolves n (Operand.weighted results terms) := by
  cases terms with
  | nil => exact .ok ok_nil
  | cons term terms =>
    obtain ⟨s, e⟩ := term
    obtain ⟨first, rest⟩ := named_append.mp named
    exact (resolves_expr h e first).bind fun _ he =>
      (resolves_weighted h terms rest).bind fun _ ht => .ok (ok_cons.mpr ⟨⟨trivial, he⟩, ht⟩)

end

variable (h : W.Ok n results)
include h

theorem resolves_operands (es : Operands) (named : W.Named n es.variables) :
    W.Resolves n (es.exprs results) := by
  cases es with
  | each es => exact resolves_exprs h es named
  | elements ref => exact resolves_exprsOfRefs h (.elements ref)

theorem resolves_constraint (condition : Condition) (named : W.Named n condition.variables) :
    W.Resolves n (condition.constraint results) := by
  cases condition with
  | isBit x => exact (resolves_expr h x named).bind fun _ hx => .ok hx
  | equal x y =>
    obtain ⟨left, right⟩ := named_append.mp named
    exact (resolves_expr h x left).bind fun _ hx =>
      (resolves_expr h y right).bind fun _ hy => .ok ⟨hx, hy⟩
  | square x y =>
    obtain ⟨left, right⟩ := named_append.mp named
    exact (resolves_expr h x left).bind fun _ hx =>
      (resolves_expr h y right).bind fun _ hy => .ok ⟨hx, hy⟩
  | product a b c =>
    obtain ⟨factors, result⟩ := named_append.mp named
    obtain ⟨left, right⟩ := named_append.mp factors
    exact (resolves_expr h a left).bind fun _ ha => (resolves_expr h b right).bind fun _ hb =>
      (resolves_expr h c result).bind fun _ hc => .ok ⟨ha, hb, hc⟩

end Operands

section Operations
variable {loc : String}

instance : Wired Aes.KeySize := ⟨fun _ _ _ => True, fun _ h => h⟩

theorem ok_ofVar {s : Shape} {v : s.Var} (h : W.Ok n v) : W.Ok n (Value.ofVar s v) := by
  induction s with
  | field => exact h
  | bit => exact h
  | unit => trivial
  | pair a b iha ihb =>
    exact ok_values.mpr (ok_cons.mpr ⟨iha h.1, ok_cons.mpr ⟨ihb h.2, ok_nil⟩⟩)

theorem ok_fields {xs : List Expr} (h : W.Ok n xs) : W.Ok n (Value.list (xs.map .field)) :=
  ok_values.mpr (h.map fun _ hx => hx)

theorem ok_bitValues {bs : Bits} (h : W.Ok n bs) : W.Ok n (Value.list (bs.map .bit)) :=
  ok_values.mpr (h.map fun _ hb => hb)

theorem ok_bitsList {vs : List Bits} (h : W.Ok n vs) : W.Ok n (Operation.bitsList vs) :=
  ok_values.mpr (h.map fun _ hv => hv)

theorem ok_wordList {vs : List Word} (h : W.Ok n vs) : W.Ok n (Operation.wordList vs) :=
  ok_values.mpr (h.map fun _ hv => hv)

/-- A bit may be taken from any expression. -/
def Trusting (W : WireInvariant) : Prop := ∀ n e, W.expr n e → W.bit n ⟨e⟩

theorem keeps_operation {op : Operation} (h : W.Ok n results) (named : W.Named n op.variables)
    (trusted : W.Trusting ∨ ∀ e, op ≠ .bitUnchecked e) : W.Keeps (op.circuit results loc) n := by
  cases op with
  | expr e => exact (resolves_expr h e named).lift fun _ hx => .pure hx
  | store x =>
    have stored : W.Keeps (Circuit.storeValue x) n :=
      ⟨fun _ => trivial, by rintro _ _ _ ⟨⟩; exact W.var (Nat.lt_succ_self n)⟩
    exact stored.map fun _ _ hx => hx
  | compute s hint => exact (keeps_compute s loc _).map fun _ _ => ok_ofVar
  | computeMany s len hint =>
    exact (keeps_computeMany s len loc _).map fun _ _ hv =>
      ok_values.mpr (hv.map fun _ => ok_ofVar)
  | check x =>
    refine (resolves_value h x).lift fun v hv => ?_
    cases v with
    | bit b =>
      exact Keeps.constrain (List.forall_mem_singleton.mpr (W.ofBit hv)) fun _ => .pure trivial
    | field _ => exact .pure trivial
    | _ => exact .reject _
  | mul a b label =>
    obtain ⟨left, right⟩ := named_append.mp named
    exact (resolves_expr h a left).lift fun _ ha => (resolves_expr h b right).lift fun _ hb =>
      (keeps_mul ha hb label loc).map fun _ _ hr => hr
  | square a =>
    exact (resolves_expr h a named).lift fun _ ha => (keeps_square ha loc).map fun _ _ hr => hr
  | assertEquals a b =>
    obtain ⟨left, right⟩ := named_append.mp named
    exact (resolves_expr h a left).lift fun _ ha => (resolves_expr h b right).lift fun _ hb =>
      (keeps_assertEquals ha hb loc).bind fun _ _ _ _ => .pure trivial
  | assert conditions label =>
    have each : W.Ok n conditions := fun condition member i inside =>
      named i (List.mem_flatMap.mpr ⟨condition, member, inside⟩)
    refine Keeps.bind (Keeps.mapM each fun condition m le hc =>
      (resolves_constraint (h.mono le) condition hc).keeps) fun cs m _ hc => ?_
    exact (Keeps.assert label loc hc).bind fun _ _ _ _ => Keeps.pure (a := Value.unit) trivial
  | bit b => exact .pure (W.bitConst n b)
  | bitUnchecked e =>
    rcases trusted with trusted | checked
    · exact (resolves_expr h e named).lift fun _ he => .pure (trusted n _ he)
    · exact absurd rfl (checked e)
  | bitNot a => exact (resolves_bit h a).lift fun _ ha => .pure (W.bitNot ha)
  | bitAnd a b =>
    exact (resolves_bit h a).lift fun _ ha => (resolves_bit h b).lift fun _ hb =>
      (keeps_bitAnd ha hb loc).map fun _ _ hr => hr
  | bitXor a b =>
    exact (resolves_bit h a).lift fun _ ha => (resolves_bit h b).lift fun _ hb =>
      (keeps_bitXor ha hb loc).map fun _ _ hr => hr
  | bitExpr a => exact (resolves_bit h a).lift fun _ ha => .pure (W.ofBit ha)
  | bits bs => exact .pure (ok_constBits bs)
  | bytes bs => exact .pure (ok_constBits (Layout.bytesToBits bs))
  | bitsOf refs =>
    have wires : W.Ok n refs := fun _ _ => trivial
    exact (Keeps.mapM wires fun ref m le _ => (resolves_bit (h.mono le) ref).keeps).map
      fun _ _ hb => hb
  | witnessBits len value => exact (keeps_witness len value loc).map fun _ _ hb => hb
  | witnessBytes what len value =>
    exact (keeps_witnessBytes what len value loc).map fun _ _ hb => hb
  | bitsOfExpr e width =>
    exact (resolves_expr h e named).lift fun _ he =>
      (keeps_ofExpr he width loc).map fun _ _ hb => hb
  | bitsToExpr x => exact (resolves_bits h x).lift fun _ hx => .pure (ok_toExpr hx)
  | bitsXor a b =>
    exact (resolves_bits h a).lift fun _ ha => (resolves_bits h b).lift fun _ hb =>
      (keeps_bitsXor ha hb loc).map fun _ _ hr => hr
  | bitsAnd a b =>
    exact (resolves_bits h a).lift fun _ ha => (resolves_bits h b).lift fun _ hb =>
      (keeps_bitsAnd ha hb loc).map fun _ _ hr => hr
  | bitsNot a => exact (resolves_bits h a).lift fun _ ha => .pure (ok_bitsNot ha)
  | rotateLeft a k =>
    refine (resolves_value h a).lift fun v hv => ?_
    cases v with
    | bits bs =>
      have ok : W.Ok n bs := hv
      exact .pure (ok.rotateRight k)
    | word w => exact .pure (ok_wordRotateLeft hv k)
    | _ => exact .reject _
  | rotateRight a k => exact (resolves_bits h a).lift fun _ ha => .pure (ha.rotateLeft k)
  | reverseInBytes a => exact (resolves_bits h a).lift fun _ ha => .pure (ok_reverseInBytes ha)
  | concat parts =>
    exact (resolves_bitsOfRefs h parts).lift fun _ hp => .pure (ok_flatten.mpr hp)
  | take a k => exact (resolves_bits h a).lift fun _ ha => .pure (ha.take k)
  | chunks a k =>
    exact (resolves_bits h a).lift fun _ ha => (keeps_chunks k ha).map fun _ _ => ok_bitsList
  | split a => exact (resolves_bits h a).lift fun _ ha => .pure (ok_bitValues ha)
  | pack x chunk =>
    exact (resolves_bits h x).lift fun _ hx => (keeps_pack chunk hx).map fun _ _ => ok_fields
  | word w => exact .pure (ok_word w)
  | words ws =>
    refine .pure (ok_wordList fun word member => ?_)
    obtain ⟨w, -, rfl⟩ := List.mem_map.mp member
    exact ok_word w
  | wordWitness value => exact (keeps_wordWitness value loc).map fun _ _ hw => hw
  | wordWitnesses len values =>
    exact (keeps_wordWitnesses len values loc).map fun _ _ => ok_wordList
  | wordOfBits x =>
    exact (resolves_bits h x).lift fun _ hx => (keeps_wordOfBits hx).map fun _ _ hw => hw
  | wordBits x => exact (resolves_word h x).lift fun _ hx => .pure hx
  | wordToExpr x => exact (resolves_word h x).lift fun _ hx => .pure (ok_wordToExpr hx)
  | wordXor a b =>
    exact (resolves_word h a).lift fun _ ha => (resolves_word h b).lift fun _ hb =>
      (keeps_wordXor ha hb loc).map fun _ _ hr => hr
  | wordAddMany words =>
    exact (resolves_words h words).lift fun _ hw => (keeps_addMany hw loc).map fun _ _ hr => hr
  | substitute x table =>
    exact (resolves_bits h x).lift fun _ hx => (keeps_substitute hx).map fun _ _ hr => hr
  | keyExpansion keyBytes key table =>
    have size : W.Resolves n (Aes.KeySize.ofBytes keyBytes) := fun _ _ => trivial
    exact size.lift fun size _ => (resolves_bits h key).lift fun _ hk =>
      (keeps_keyExpansion size hk).map fun _ _ hr =>
        ok_values.mpr (hr.map fun _ => ok_bitsList)
  | encryptBlock keys block table =>
    exact (resolves_bitsLists h keys).lift fun _ hk =>
      (resolves_bitsOfRefs h block).lift fun _ hb =>
        (keeps_encryptBlock hk hb).map fun _ _ => ok_bitsList
  | counterXor keyBytes key iv counter message =>
    have size : W.Resolves n (Aes.KeySize.ofBytes keyBytes) := fun _ _ => trivial
    exact size.lift fun size _ => (resolves_bits h key).lift fun _ hk =>
      (resolves_bits h iv).lift fun _ hv => (resolves_bits h message).lift fun _ hm =>
        (keeps_counterXor size counter hk hv hm).map fun _ _ hr => hr
  | quarterRound state a b c d =>
    exact (resolves_words h state).lift fun _ hs =>
      (keeps_quarterRound hs a b c d).map fun _ _ => ok_wordList
  | chachaBlock key counter nonce =>
    exact (resolves_words h key).lift fun _ hk => (resolves_word h counter).lift fun _ hc =>
      (resolves_words h nonce).lift fun _ hn =>
        (keeps_blockGadget hk hc hn).map fun _ _ => ok_wordList
  | chachaWords key nonce counter message =>
    exact (resolves_words h key).lift fun _ hk => (resolves_words h nonce).lift fun _ hn =>
      (resolves_word h counter).lift fun _ hc => (resolves_words h message).lift fun _ hm =>
        (keeps_xorWords hk hn hc hm).map fun _ _ => ok_wordList
  | chachaBits key nonce counter message =>
    exact (resolves_bits h key).lift fun _ hk => (resolves_bits h nonce).lift fun _ hn =>
      (resolves_word h counter).lift fun _ hc => (resolves_bits h message).lift fun _ hm =>
        (keeps_xorBits hk hn hc hm).map fun _ _ hr => hr
  | pow e exponent =>
    exact (resolves_expr h e named).lift fun _ he => (keeps_pow he exponent).map fun _ _ hr => hr
  | feistel params left right =>
    obtain ⟨first, second⟩ := named_append.mp named
    exact (resolves_expr h left first).lift fun _ hl => (resolves_expr h right second).lift
      fun _ hr => (keeps_feistelGadget (ok_pair.mpr ⟨hl, hr⟩)).map fun _ _ hs =>
        ok_values.mpr (ok_cons.mpr ⟨hs.1, ok_cons.mpr ⟨hs.2, ok_nil⟩⟩)
  | sponge params inputs outputs =>
    exact (resolves_operands h inputs named).lift fun _ hi =>
      (keeps_spongeGadget hi outputs).map fun _ _ => ok_fields

theorem keeps_circuitFrom {steps : List Step} (h : W.Ok n results)
    (named : ∀ step ∈ steps, W.Named n step.operation.variables)
    (trusted : W.Trusting ∨ ∀ step ∈ steps, ∀ e, step.operation ≠ .bitUnchecked e) :
    W.Keeps (circuitFrom results steps) n := by
  induction steps generalizing results n with
  | nil => exact .pure h
  | cons step steps ih =>
    obtain ⟨first, rest⟩ := List.forall_mem_cons.mp named
    have trusted₁ := trusted.imp_right fun each => each step List.mem_cons_self
    have trusted₂ := trusted.imp_right fun each step member =>
      each step (List.mem_cons_of_mem _ member)
    refine (keeps_operation h first trusted₁).bind fun v m le hv => ?_
    exact ih (ok_push (h.mono le) hv) (fun step member => (rest step member).mono le) trusted₂

end Operations

end WireInvariant
end RankOne
