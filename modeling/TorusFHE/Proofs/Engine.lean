import TorusFHE.Proofs.Engine.Operation

/-!
# Uses of the engine within uses

A thread uses its engine any number of times, and whatever computation is using it may try to use it
again.  Every use from outside goes through, and every use from within is refused before it starts.
So the generator of the engine is seeded once, and stands behind just as many words as the outermost
computations have drawn.

Such threads are kept as trees.  `Closure.run` and `Program.run` run a tree on the engine, while
`Closure.answer` and `Program.answer` say what comes of it from the stream of the seed and nothing
else: there the uses within are never looked into, and an operation of the interface is its form
with a generator.

* `Closure.run_ofPosition`: a computation that holds the engine, step by step;
* `Program.run_free`: all uses of a thread;
* `Program.exists_answer`: the only thing that can go wrong is a key that does not fit.
-/

namespace TorusFHE.Engine

/-! ## Threads -/

/-- A computation that holds the engine.  It draws from its generator, and tries to use the engine
once more, for a computation or for an operation of the interface. -/
inductive Closure : Type → Type 1
  | done {α : Type} (a : α) : Closure α
  | draw {α β : Type} (request : Generator.Request β) (next : β → Closure α) : Closure α
  | call {α β : Type} (body : Closure β) (next : Except Error β → Closure α) : Closure α
  | perform {α β : Type} (op : Operation β) (next : Except Error β → Closure α) : Closure α

/-- A thread that uses the engine time and again, for computations and for operations of the
interface.  Each use may depend on the results so far. -/
inductive Program : Type → Type 1
  | done {α : Type} (a : α) : Program α
  | call {α β : Type} (body : Closure β) (next : Except Error β → Program α) : Program α
  | perform {α β : Type} (op : Operation β) (next : Except Error β → Program α) : Program α

namespace Closure

def run {α : Type} : Closure α → EngineM α
  | done a => return a
  | draw request next => do
    let answer ← Engine.draw (Draw.sample request.sampler)
    (next answer).run
  | call body next => do
    let result ← StateT.lift (use body.run)
    (next result).run
  | perform op next => do
    let result ← StateT.lift op.perform
    (next result).run

/-- The result and the number of words behind it, for a generator that has given `n` words before.
Every use within is refused: its computation is not looked into, and takes no words. -/
def answer {α : Type} (word : Nat → UInt32) : Closure α → Nat → α × Nat
  | done a, n => (a, n)
  | draw request next, n => (next (request.answer word n)).answer word (n + request.words)
  | call _ next, n => (next (.error (.entropy .inUse))).answer word n
  | perform op next, n => (next (.error op.refusal)).answer word n

end Closure

namespace Program

/-- Goes on from the result of a use, and notes the engine behind it. -/
def noting {α β : Type} (result : ThreadM (Except Error β))
    (rest : Except Error β → ThreadM (α × List Engine)) : ThreadM (α × List Engine) := do
  let result ← result
  let engine ← get
  let (a, engines) ← rest result
  return (a, engine :: engines)

/-- Runs the thread, and notes the engine after each use. -/
def run {α : Type} : Program α → ThreadM (α × List Engine)
  | done a => return (a, [])
  | call body next => noting (use body.run) fun result => (next result).run
  | perform op next => noting op.perform fun result => (next result).run

/-- The result, and the number of words behind each use.  Every use runs its computation and returns
what that returns; an operation draws what its form with a generator draws. -/
def answer {α : Type} (entropy : Seed) : Program α → Nat → Except Fault (α × List Nat)
  | done a, _ => .ok (a, [])
  | call body next, n => do
    let (b, n) := body.answer (ChaCha20.word entropy) n
    let (a, positions) ← (next (.ok b)).answer entropy n
    return (a, n :: positions)
  | perform op next, n => do
    let (result, stream) ← op.generate (.ofPosition entropy n)
    let (a, positions) ← (next result).answer entropy stream.position
    return (a, stream.position :: positions)

/-- Whenever an operation is performed from outside, its arguments are in its domain.  Nothing is
asked of computations, nor of operations from within. -/
def InDomain {α : Type} (entropy : Seed) : Program α → Nat → Prop
  | done _, _ => True
  | call body next, n =>
    let (b, n) := body.answer (ChaCha20.word entropy) n
    (next (.ok b)).InDomain entropy n
  | perform op next, n =>
    op.InDomain ∧ ∀ result stream, op.generate (.ofPosition entropy n) = .ok (result, stream) →
      (next result).InDomain entropy stream.position

end Program

/-! ## Computations that hold the engine -/

variable {α β : Type}

/-- A computation that holds the engine runs as if every use within were refused, and holds the
engine to the end. -/
theorem Closure.run_ofPosition (c : Closure α) (entropy : Seed) (n : Nat) :
    c.run (.ofPosition entropy n) .inUse =
      .ok (((c.answer (ChaCha20.word entropy) n).1,
        .ofPosition entropy (c.answer (ChaCha20.word entropy) n).2), .inUse) := by
  induction c generalizing n with
  | done a => rfl
  | draw request next ih =>
    have hrun : (draw request next).run (.ofPosition entropy n) .inUse =
        (next (request.sampler (ChaCha20.Stream.ofPosition entropy n)).1).run
          (request.sampler (ChaCha20.Stream.ofPosition entropy n)).2 .inUse := rfl
    rw [hrun, request.sampler_ofPosition]
    exact ih _ (n + request.words)
  | call body next _ ih =>
    -- Nothing is known of the computation within, and nothing has to be.
    exact ih (.error (.entropy .inUse)) n
  | perform op next ih =>
    have hrun : (perform op next).run (.ofPosition entropy n) .inUse =
        ((op.perform .inUse >>= fun r => .ok ((r.1, .ofPosition entropy n), r.2)) >>= fun r =>
          (next r.1.1).run r.1.2 r.2) := rfl
    rw [hrun, op.perform_inUse, ok_bind, ok_bind]
    exact ih _ n

/-- Words are taken and never given back. -/
theorem Closure.le_answer (c : Closure α) (word : Nat → UInt32) (n : Nat) :
    n ≤ (c.answer word n).2 := by
  induction c generalizing n with
  | done a => exact le_rfl
  | draw request next ih => exact (Nat.le_add_right n _).trans (ih _ _)
  | call body next _ ih => exact ih _ n
  | perform op next ih => exact ih _ n

/-- A use from outside returns the result of the computation, whatever is tried within. -/
theorem use_closure_free (c : Closure α) (entropy : Seed) (start : Option Nat) :
    let r := c.answer (ChaCha20.word entropy) (start.getD 0)
    use c.run (free entropy start) = .ok (.ok r.1, free entropy (some r.2)) := by
  rw [use_free, use.run, Closure.run_ofPosition]
  rfl

/-! ## All uses of a thread -/

namespace Program

/-- How a thread ends: every use has left the engine free, behind these numbers of words. -/
def outcome (entropy : Seed) (start : Option Nat) (r : α × List Nat) :
    (α × List Engine) × Engine :=
  ((r.1, r.2.map fun n => free entropy (some n)), free entropy (r.2.getLast?.or start))

theorem noting_apply (use : ThreadM (Except Error β))
    (rest : Except Error β → ThreadM (α × List Engine)) (engine : Engine) :
    noting use rest engine =
      (use engine >>= fun r => rest r.1 r.2 >>= fun q => .ok ((q.1.1, r.2 :: q.1.2), q.2)) :=
  rfl

/-- A use and the rest of the thread: the rest starts where the use has left the generator. -/
theorem noting_free {use : ThreadM (Except Error β)}
    {rest : Except Error β → ThreadM (α × List Engine)} {entropy : Seed} {start : Option Nat}
    {result : Except Error β} {n : Nat} {x : Except Fault (α × List Nat)}
    (huse : use (free entropy start) = .ok (result, free entropy (some n)))
    (hrest : rest result (free entropy (some n)) = x.map (outcome entropy (some n))) :
    noting use rest (free entropy start) =
      (do let (a, positions) ← x; return (a, n :: positions)).map (outcome entropy start) := by
  rw [noting_apply, huse, ok_bind, hrest]
  cases x with
  | error fault => rfl
  | ok r =>
    -- The last use of the rest is the last of all, unless there is none in the rest.
    have hlast : (n :: r.2).getLast?.or start = r.2.getLast?.or (some n) := by
      rw [List.getLast?_cons]
      cases r.2.getLast? <;> rfl
    have houtcome : outcome entropy start (r.1, n :: r.2) =
        ((r.1, free entropy (some n) :: r.2.map fun n => free entropy (some n)),
          free entropy (r.2.getLast?.or (some n))) := by
      rw [← hlast]
      rfl
    exact congrArg Except.ok houtcome.symm

/-- Whatever a thread does, every use from outside runs its computation, whose uses of the engine
are all refused, and leaves the engine free, behind as many words as were drawn so far. -/
theorem run_free (p : Program α) (entropy : Seed) (start : Option Nat) :
    p.run (free entropy start) =
      (p.answer entropy (start.getD 0)).map (outcome entropy start) := by
  induction p generalizing start with
  | done a => rfl
  | call body next ih => exact noting_free (use_closure_free body entropy start) (ih _ (some _))
  | perform op next ih =>
    have huse := op.perform_free entropy start
    have hanswer : (perform op next).answer entropy (start.getD 0) =
        (op.generate (.ofPosition entropy (start.getD 0)) >>= fun r =>
          (next r.1).answer entropy r.2.position >>= fun q =>
            .ok (q.1, r.2.position :: q.2)) := rfl
    cases hop : op.generate (.ofPosition entropy (start.getD 0)) with
    | error fault =>
      -- The thread ends with the fault on both sides, before the rest of it is looked at.
      rw [run, noting_apply, huse, hanswer, hop]
      rfl
    | ok r =>
      have hstream := (Operation.ofPosition_of_generate hop).2
      have hperform : op.perform (free entropy start) =
          .ok (r.1, free entropy (some r.2.position)) := by
        rw [huse, hop, free, ← hstream]
        rfl
      rw [hanswer, hop, ok_bind]
      exact noting_free hperform (ih r.1 (some r.2.position))

/-- The numbers of words behind the uses of a thread never decrease. -/
theorem isChain_answer {p : Program α} {entropy : Seed} {n : Nat} {r : α × List Nat}
    (h : p.answer entropy n = .ok r) : (n :: r.2).IsChain (· ≤ ·) := by
  induction p generalizing n r with
  | done a =>
    cases h
    exact .singleton n
  | call body next ih =>
    rcases bind_eq_ok_iff.1 h with ⟨q, hrest, hq⟩
    cases hq
    exact .cons_cons (body.le_answer _ n) (ih _ hrest)
  | perform op next ih =>
    rcases bind_eq_ok_iff.1 h with ⟨s, hop, h⟩
    rcases bind_eq_ok_iff.1 h with ⟨q, hrest, hq⟩
    cases hq
    exact .cons_cons (Operation.ofPosition_of_generate hop).1 (ih _ hrest)

/-- A thread whose operations have their arguments in their domains runs to its end. -/
theorem exists_answer {p : Program α} {entropy : Seed} {n : Nat} (h : p.InDomain entropy n) :
    ∃ r, p.answer entropy n = .ok r := by
  induction p generalizing n with
  | done a => exact ⟨_, rfl⟩
  | call body next ih =>
    rcases ih _ h with ⟨r, hr⟩
    exact ⟨_, bind_eq_ok_iff.2 ⟨r, hr, rfl⟩⟩
  | perform op next ih =>
    rcases h with ⟨hop, hnext⟩
    rcases Operation.generate_makes hop (.ofPosition entropy n) with ⟨result, stream, hrun, -⟩
    rcases ih result (hnext result stream hrun) with ⟨r, hr⟩
    exact ⟨_, bind_eq_ok_iff.2 ⟨_, hrun, bind_eq_ok_iff.2 ⟨r, hr, rfl⟩⟩⟩

end Program

/-! ## Operations from outside -/

/-- An operation on arguments in its domain is answered, and leaves the engine free, behind at least
as many words as before. -/
theorem Operation.exists_perform_free {op : Operation α} (h : op.InDomain) (entropy : Seed)
    (start : Option Nat) :
    ∃ result n, op.perform (free entropy start) = .ok (result, free entropy (some n)) ∧
      start.getD 0 ≤ n ∧ op.Answers result := by
  rcases generate_makes h (.ofPosition entropy (start.getD 0)) with ⟨result, stream, hrun, hresult⟩
  rcases ofPosition_of_generate hrun with ⟨hle, hstream⟩
  refine ⟨result, stream.position, ?_, hle, hresult⟩
  rw [op.perform_free, hrun, free, ← hstream]
  rfl

/-- An operation whose form with a generator refuses without a draw leaves the generator where it
was. -/
theorem Operation.perform_free_of_refused (op : Operation α) {e : Error} {entropy : Seed}
    {start : Option Nat} (h : ∀ g, op.generate g = .ok (.error e, g)) :
    op.perform (free entropy start) = .ok (.error e, free entropy (some (start.getD 0))) := by
  rw [op.perform_free, h]
  rfl

theorem generateClientKey_of_invalid {p : Parameters} {cause : InvalidSetting}
    (h : p.validate = .error cause) (entropy : Seed) (start : Option Nat) :
    generateClientKey p (free entropy start) =
      .ok (.error (.invalidParameter cause), free entropy (some (start.getD 0))) := by
  refine Operation.perform_free_of_refused (.clientKey p) ?_
  intro g
  simp [Operation.generate, ClientKey.generate, h]

theorem generateKeyPair_of_invalid {p : Parameters} {cause : InvalidSetting}
    (h : p.validate = .error cause) (entropy : Seed) (start : Option Nat) :
    generateKeyPair p (free entropy start) =
      .ok (.error (.invalidParameter cause), free entropy (some (start.getD 0))) :=
  Operation.perform_free_of_refused (.keyPair p) (generateKeysWith_of_validate_eq_error h p.noise)

/-! ## All uses -/

/-- From outside, every use runs its computation and returns its result, and every operation is its
form with a generator, in the stream of the engine; from within, every use is refused and nothing
runs or moves.  The engine is free behind each use from outside, with one generator from one seed,
which has given just the words that these uses drew.  A thread whose keys fit runs to its end.  From
outside, invalid parameters are refused as such and not for the engine. -/
theorem outermost_uses_succeed (entropy : Seed) (start : Option Nat) :
    (∀ (α : Type) (p : Program α),
      p.run (free entropy start) =
        (p.answer entropy (start.getD 0)).map fun r =>
          ((r.1, r.2.map fun n => free entropy (some n)), free entropy (r.2.getLast?.or start))) ∧
    (∀ (α : Type) (p : Program α), p.InDomain entropy (start.getD 0) →
      ∃ r, p.answer entropy (start.getD 0) = .ok r ∧ (start.getD 0 :: r.2).IsChain (· ≤ ·)) ∧
    (∀ (α : Type) (c : Closure α),
      let r := c.answer (ChaCha20.word entropy) (start.getD 0)
      use c.run (free entropy start) = .ok (.ok r.1, free entropy (some r.2))) ∧
    (∀ (α : Type) (op : Operation α),
      op.perform (free entropy start) =
        (op.generate (.ofPosition entropy (start.getD 0))).map fun r => (r.1, .idle r.2)) ∧
    (∀ (α : Type) (op : Operation α), op.InDomain →
      ∃ result n, op.perform (free entropy start) = .ok (result, free entropy (some n)) ∧
        start.getD 0 ≤ n ∧ op.Answers result) ∧
    (∀ (α : Type) (f : EngineM α), use f .inUse = .ok (.error (.entropy .inUse), .inUse)) ∧
    (∀ (α : Type) (op : Operation α), op.perform .inUse = .ok (.error op.refusal, .inUse)) ∧
    ∀ (p : Parameters) (cause : InvalidSetting), p.validate = .error cause →
      generateClientKey p (free entropy start) =
        .ok (.error (.invalidParameter cause), free entropy (some (start.getD 0))) ∧
      generateKeyPair p (free entropy start) =
        .ok (.error (.invalidParameter cause), free entropy (some (start.getD 0))) := by
  refine ⟨fun _ p => p.run_free entropy start, fun _ p hp => ?_,
    fun _ c => use_closure_free c entropy start, fun _ op => op.perform_free entropy start,
    fun _ op hop => op.exists_perform_free hop entropy start, fun _ f => use_inUse f,
    fun _ op => op.perform_inUse, fun p cause hp => ?_⟩
  · rcases Program.exists_answer hp with ⟨r, hr⟩
    exact ⟨r, hr, Program.isChain_answer hr⟩
  · exact ⟨generateClientKey_of_invalid hp entropy start, generateKeyPair_of_invalid hp entropy start⟩

/-- Three uses of a fresh engine.  The first has a use and the generation of a key within, which are
both refused and take no word.  The second is refused for its parameters and takes none either, so
that the third draws the words behind the first one.  A thread that goes on from there to make a key
and to encrypt a bit with it runs to its end. -/
theorem outermost_uses_succeed_fresh_engine :
    let entropy : Seed := ⟨List.replicate 32 7, rfl⟩
    let word := ChaCha20.word entropy
    let behind : Nat → Engine := fun n => .idle (.ofPosition entropy n)
    let p : Parameters :=
      ⟨0, 1, 2, ⟨0x3f50000000000000⟩, ⟨0x3f50000000000000⟩, 4, 2, 4, 2⟩
    let pair : Closure UInt64 := .draw .word64 fun w => .done w
    let outer : Closure (UInt32 × Except Error UInt64 × Except Error ClientKey) :=
      .draw .word fun w => .call pair fun x => .perform (.clientKey p) fun y => .done (w, x, y)
    let fresh : Program (Except Error Ciphertext) :=
      .perform (.clientKey Preset.standard.parameters) fun result =>
        match result with
        | .error e => .done (.error e)
        | .ok ck => .perform (.encrypt ck true) fun c => .done c
    (Program.call outer fun x => .perform (.clientKey p) fun y => .call pair fun z =>
        .done (x, y, z)).run (.unseeded entropy) =
      .ok (((.ok (word 0, .error (.entropy .inUse), .error (.keyGeneration .clientKey .inUse)),
        .error (.invalidParameter ⟨.lweDimension, .zero⟩),
        .ok ((word 1).toUInt64 ||| (word 2).toUInt64 <<< 32)),
        [behind 1, behind 1, behind 3]), behind 3) ∧
    (∃ r, fresh.answer entropy 3 = .ok r ∧
      fresh.run (behind 3) = .ok ((r.1, r.2.map behind), free entropy (r.2.getLast?.or (some 3)))) ∧
    p.validate = .error ⟨.lweDimension, .zero⟩ ∧
    generateClientKey p (behind 3) =
      .ok (.error (.invalidParameter ⟨.lweDimension, .zero⟩), behind 3) := by
  intro entropy word behind p pair outer fresh
  have hinvalid : p.validate = .error ⟨.lweDimension, .zero⟩ := rfl
  rcases outermost_uses_succeed entropy (some 3) with ⟨hrun, hanswer, -, -, -, -, -, hrefused⟩
  refine ⟨(outermost_uses_succeed entropy none).1 _ _, ?_, hinvalid, (hrefused p _ hinvalid).1⟩
  have hdomain : fresh.InDomain entropy 3 := by
    refine ⟨trivial, fun result stream hgenerate => ?_⟩
    cases result with
    | error e => trivial
    | ok ck => exact ⟨(ClientKey.wellFormed_of_generate hgenerate).1, fun _ _ _ => trivial⟩
  rcases hanswer _ fresh hdomain with ⟨r, hr, -⟩
  exact ⟨r, hr, (hrun _ fresh).trans (congrArg (Except.map _) hr)⟩

end TorusFHE.Engine
