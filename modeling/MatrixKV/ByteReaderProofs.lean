import Mathlib

/-! # Readers of byte strings

    A reader takes bytes from the front of its input and gives a value and the
    rest, or fails with an error.  Three judgements are proved along the structure
    of a reader:

    * `Reads p bs a` — in front of any rest, `p` takes exactly `bs` and gives `a`.
    * `Shrinks p` — the rest is never longer than the input.
    * `Ensures p Q` — what `p` gives satisfies `Q`.

    `iterate` repeats a body until it is done.  It counts rounds, but if each round
    takes a byte, the count does not show (`loop_rounds`). -/

namespace ByteReader

variable {ε ε' α β σ : Type}

/-- A parser: from the input to an error, or a value and the rest of the input. -/
def Reader (ε α : Type) : Type := List UInt8 → Except ε (α × List UInt8)

namespace Reader

instance : Monad (Reader ε) where
  pure a := fun input => .ok (a, input)
  bind p f := fun input =>
    match p input with
    | .error e => .error e
    | .ok (a, rest) => f a rest

/-- The parser that always fails. -/
def fail (e : ε) : Reader ε α := fun _ => .error e

/-- The reader with an error of its own. -/
def orFail (p : Reader ε α) (e : ε') : Reader ε' α := fun input =>
  match p input with
  | .error _ => .error e
  | .ok r => .ok r

end Reader

open Reader

/-- What two parsers in a row do, unfolded. -/
theorem bind_apply (p : Reader ε α) (f : α → Reader ε β) (input : List UInt8) :
    (p >>= f) input =
      match p input with
      | .error e => .error e
      | .ok (a, rest) => f a rest := rfl

variable {input rest : List UInt8} {p : Reader ε α} {f : α → Reader ε β}

/-- A success of the first parser hands its rest to the second. -/
theorem bind_ok {a : α} (h : p input = .ok (a, rest)) : (p >>= f) input = f a rest := by
  rw [bind_apply, h]

/-- A success of two parsers in a row was one of each. -/
theorem of_bind_ok {b : β} (h : (p >>= f) input = .ok (b, rest)) :
    ∃ a mid, p input = .ok (a, mid) ∧ f a mid = .ok (b, rest) := by
  cases hp : p input with
  | error e =>
    rw [bind_apply, hp] at h
    exact nomatch h
  | ok r =>
  obtain ⟨a, mid⟩ := r
  rw [bind_ok hp] at h
  exact ⟨a, mid, rfl, h⟩

/-- Another error does not change the successes. -/
theorem orFail_ok {e : ε'} {r : α × List UInt8} : p.orFail e input = .ok r ↔ p input = .ok r := by
  rw [orFail]
  cases p input with
  | error e' => exact iff_of_false nofun nofun
  | ok r' =>
    show Except.ok r' = Except.ok r ↔ Except.ok r' = Except.ok r
    rw [Except.ok.injEq, Except.ok.injEq]

/-! ## What is read -/

/-- In front of any rest, `p` reads exactly `bs` and returns `a`. -/
def Reads (p : Reader ε α) (bs : List UInt8) (a : α) : Prop :=
  ∀ rest, p (bs ++ rest) = .ok (a, rest)

theorem Reads.pure (a : α) : Reads (pure a : Reader ε α) [] a := fun _ => rfl

variable {bs : List UInt8}

/-- Parts of a format are read one after the other. -/
theorem Reads.bind {cs : List UInt8} {a : α} {b : β} (hp : Reads p bs a) (hf : Reads (f a) cs b) :
    Reads (p >>= f) (bs ++ cs) b := by
  intro rest
  rw [List.append_assoc, bind_ok (hp (cs ++ rest))]
  exact hf rest

/-- The last reader of a sequence only passes its value on. -/
theorem Reads.map {f : α → β} {a : α} (hp : Reads p bs a) :
    Reads (p >>= fun a => Pure.pure (f a)) bs (f a) := by
  intro rest
  rw [bind_ok (hp rest)]
  rfl

theorem Reads.orFail {a : α} (hp : Reads p bs a) (e : ε') : Reads (p.orFail e) bs a :=
  fun rest => orFail_ok.mpr (hp rest)

/-! ## The rest -/

/-- A success leaves no more input than there was. -/
def Shrinks (p : Reader ε α) : Prop :=
  ∀ input a rest, p input = .ok (a, rest) → rest.length ≤ input.length

theorem Shrinks.pure (a : α) : Shrinks (pure a : Reader ε α) := by
  intro input b rest h
  cases h
  exact Nat.le_refl _

theorem Shrinks.fail (e : ε) : Shrinks (Reader.fail e : Reader ε α) :=
  nofun

/-- Parsers in a row leave no more than the first of them. -/
theorem Shrinks.bind (hp : Shrinks p) (hf : ∀ a, Shrinks (f a)) : Shrinks (p >>= f) := by
  intro input b rest h
  obtain ⟨a, mid, h1, h2⟩ := of_bind_ok h
  exact Nat.le_trans (hf a mid b rest h2) (hp input a mid h1)

theorem Shrinks.orFail (hp : Shrinks p) (e : ε') : Shrinks (p.orFail e) :=
  fun input a rest h => hp input a rest (orFail_ok.mp h)

/-- The rest is shorter than the input. -/
def Consumes (p : Reader ε α) : Prop :=
  ∀ input a rest, p input = .ok (a, rest) → rest.length < input.length

/-- To consume something is to leave no more. -/
theorem Consumes.shrinks (hp : Consumes p) : Shrinks p :=
  fun input a rest h => Nat.le_of_lt (hp input a rest h)

theorem Consumes.orFail (hp : Consumes p) (e : ε') : Consumes (p.orFail e) :=
  fun input a rest h => hp input a rest (orFail_ok.mp h)

/-- One parser that consumes is enough. -/
theorem Consumes.bind (hp : Consumes p) (hf : ∀ a, Shrinks (f a)) : Consumes (p >>= f) := by
  intro input b rest h
  obtain ⟨a, mid, h1, h2⟩ := of_bind_ok h
  exact Nat.lt_of_le_of_lt (hf a mid b rest h2) (hp input a mid h1)

/-! ## What is given -/

/-- Every value returned satisfies `Q`. -/
def Ensures (p : Reader ε α) (Q : α → Prop) : Prop :=
  ∀ input a rest, p input = .ok (a, rest) → Q a

theorem Ensures.pure {Q : α → Prop} {a : α} (h : Q a) : Ensures (pure a : Reader ε α) Q := by
  intro input b rest hb
  cases hb
  exact h

theorem Ensures.fail (e : ε) (Q : α → Prop) : Ensures (Reader.fail e : Reader ε α) Q :=
  nofun

/-- What the first parser ensures may be used for the second. -/
theorem Ensures.bind {Q : α → Prop} {R : β → Prop} (hp : Ensures p Q)
    (hf : ∀ a, Q a → Ensures (f a) R) : Ensures (p >>= f) R := by
  intro input b rest h
  obtain ⟨a, mid, h1, h2⟩ := of_bind_ok h
  exact hf a (hp input a mid h1) mid b rest h2

/-- A value of which nothing is needed. -/
theorem Ensures.skip {R : β → Prop} (hf : ∀ a, Ensures (f a) R) : Ensures (p >>= f) R :=
  Ensures.bind (Q := fun _ => True) (fun _ _ _ _ => trivial) (fun a _ => hf a)

theorem Ensures.orFail {Q : α → Prop} (hp : Ensures p Q) (e : ε') : Ensures (p.orFail e) Q :=
  fun input a rest h => hp input a rest (orFail_ok.mp h)

/-! ## A given number of bytes -/

/-- The next `n` bytes. -/
def take (n : Nat) : Reader Unit (List UInt8) := fun input =>
  if n ≤ input.length then .ok (input.take n, input.drop n) else .error ()

/-- Bytes are read back under their length. -/
theorem reads_take (bs : List UInt8) : Reads (take bs.length) bs bs := by
  intro rest
  rw [take, if_pos (by rw [List.length_append]; omega), List.take_left, List.drop_left]

/-- A success gives as many bytes as asked for. -/
theorem take_ok {n : Nat} (h : take n input = .ok (bs, rest)) :
    bs.length = n ∧ rest.length ≤ input.length := by
  rw [take] at h
  split at h
  · cases h
    rw [List.length_take, List.length_drop]
    omega
  · exact nomatch h

/-! ## Repetition -/

/-- At most `n` rounds of the body, then `out`. -/
def loop (body : σ → Reader ε (σ ⊕ β)) (out : ε) : Nat → σ → Reader ε β
  | 0, _ => fail out
  | n + 1, s => do
    match ← body s with
    | .inl s' => loop body out n s'
    | .inr b => pure b

/-- Rounds of the body until it is done, no more than there are bytes and one. -/
def iterate (body : σ → Reader ε (σ ⊕ β)) (out : ε) (s : σ) : Reader ε β :=
  fun input => loop body out (input.length + 1) s input

/-- Each round that is not the last takes a byte. -/
def Progresses (body : σ → Reader ε (σ ⊕ β)) : Prop :=
  ∀ s input s' rest, body s input = .ok (.inl s', rest) → rest.length < input.length

variable {body : σ → Reader ε (σ ⊕ β)} {out : ε}

variable {s : σ}

/-- A round that goes on. -/
theorem loop_of_inl {s' : σ} (n : Nat) (h : body s input = .ok (.inl s', rest)) :
    loop body out (n + 1) s input = loop body out n s' rest := by
  rw [loop, bind_ok h]

/-- The round that ends the loop. -/
theorem loop_of_inr {b : β} (n : Nat) (h : body s input = .ok (.inr b, rest)) :
    loop body out (n + 1) s input = .ok (b, rest) := by
  rw [loop, bind_ok h]
  rfl

/-- A round that fails. -/
theorem loop_of_error {e : ε} (n : Nat) (h : body s input = .error e) :
    loop body out (n + 1) s input = .error e := by
  rw [loop, bind_apply, h]

/-- **ROUNDS DO NOT SHOW**: with more rounds than bytes the result does not depend
    on their number, nor on the error for too few. -/
theorem loop_rounds (hbody : Progresses body) (out' : ε) :
    ∀ (n m : Nat) (s : σ) (input : List UInt8), input.length < n → input.length < m →
      loop body out n s input = loop body out' m s input := by
  intro n
  induction n with
  | zero => exact fun m s input hn => absurd hn (Nat.not_lt_zero _)
  | succ n ih =>
  intro m s input hn hm
  obtain ⟨m, rfl⟩ : ∃ k, m = k + 1 := ⟨m - 1, by omega⟩
  cases h : body s input with
  | error e => rw [loop_of_error n h, loop_of_error m h]
  | ok r =>
  obtain ⟨step, rest⟩ := r
  cases step with
  | inl s' =>
    have hlt := hbody s input s' rest h
    rw [loop_of_inl n h, loop_of_inl m h]
    exact ih m s' rest (by omega) (by omega)
  | inr b => rw [loop_of_inr n h, loop_of_inr m h]

/-- One round. -/
theorem iterate_of_inl (hbody : Progresses body) {s' : σ} (h : body s input = .ok (.inl s', rest)) :
    iterate body out s input = iterate body out s' rest := by
  have hlt := hbody s input s' rest h
  show loop body out (input.length + 1) s input = loop body out (rest.length + 1) s' rest
  rw [loop_of_inl _ h]
  exact loop_rounds hbody out _ _ s' rest hlt (Nat.lt_succ_self _)

/-- A loop whose first round is its last. -/
theorem iterate_of_inr {b : β} (h : body s input = .ok (.inr b, rest)) :
    iterate body out s input = .ok (b, rest) :=
  loop_of_inr _ h

/-- A round in front of what the further rounds read. -/
theorem Reads.iterate_inl (hbody : Progresses body) {s' : σ} {cs : List UInt8} {b : β}
    (h : Reads (body s) bs (.inl s')) (hrest : Reads (iterate body out s') cs b) :
    Reads (iterate body out s) (bs ++ cs) b := by
  intro rest
  rw [List.append_assoc, iterate_of_inl hbody (h (cs ++ rest))]
  exact hrest rest

/-- The format of the last round. -/
theorem Reads.iterate_inr {b : β} (h : Reads (body s) bs (.inr b)) :
    Reads (iterate body out s) bs b :=
  fun rest => iterate_of_inr (h rest)

/-- Rounds that do not lengthen the input make a loop that does not. -/
theorem shrinks_iterate (hbody : ∀ s, Shrinks (body s)) (s : σ) : Shrinks (iterate body out s) := by
  have hloop : ∀ (n : Nat) (s : σ), Shrinks (loop body out n s) := by
    intro n
    induction n with
    | zero => exact fun s => Shrinks.fail out
    | succ n ih =>
    intro s
    refine (hbody s).bind ?_
    intro step
    cases step with
    | inl s' => exact ih s'
    | inr b => exact Shrinks.pure b
  exact fun input a rest h => hloop _ s input a rest h

/-- **INVARIANT RULE**: what each round keeps holds at the end. -/
theorem ensures_iterate {Q : σ → Prop} {R : β → Prop}
    (hbody : ∀ s, Q s → Ensures (body s) (Sum.elim Q R)) (hs : Q s) :
    Ensures (iterate body out s) R := by
  have hloop : ∀ (n : Nat) (s : σ), Q s → Ensures (loop body out n s) R := by
    intro n
    induction n with
    | zero => exact fun s _ => Ensures.fail out R
    | succ n ih =>
    intro s hs
    refine (hbody s hs).bind ?_
    intro step hstep
    cases step with
    | inl s' => exact ih s' hstep
    | inr b => exact Ensures.pure hstep
  exact fun input a rest h => hloop _ s hs input a rest h

end ByteReader
