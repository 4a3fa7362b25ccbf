import TorusFHE.Torus.Vector

/-!
# Generators of random words and bytes

A generator is a state from which words of 32 and of 64 bits and runs of bytes are taken, one after
the other.  Every random object is made by a sampler, a function that takes what it needs and returns
the state behind it, so that the order of the draws is part of each definition.  A sampler that may
meet operands of the wrong size runs in `Draw`, where a fault leaves no state behind.
-/

namespace TorusFHE

abbrev Sampler (γ α : Type) := γ → α × γ

/-- A state from which random words and bytes are taken.  How the three kinds of draws are related
is left to the generator. -/
class Generator (γ : Type) where
  next : Sampler γ UInt32
  next64 : Sampler γ UInt64
  /-- Draws `count` bytes at once. -/
  fill : (count : Nat) → Sampler γ (Vector UInt8 count)

/-- A random computation that may fault. -/
abbrev Draw (γ : Type) := StateT γ (Except Fault)

def Draw.sample {γ α : Type} (s : Sampler γ α) : Draw γ α :=
  fun g => .ok (s g)

def Draw.lift {γ α : Type} (x : Except Fault α) : Draw γ α :=
  fun g => x.map (·, g)

namespace Sampler

variable {γ α : Type}

/-- Draws `n` values, one after the other. -/
def repeated (s : Sampler γ α) (n : Nat) : Sampler γ (List α) :=
  go n []
where
  /-- Draws `n` values in front of those in `acc`, which are in reverse. -/
  go : Nat → List α → Sampler γ (List α)
    | 0, acc, g => (acc.reverse, g)
    | n + 1, acc, g => let (a, g) := s g; go n (a :: acc) g

variable [Generator γ]

/-- One word as a torus element: uniform on the torus. -/
def uniform : Sampler γ Torus := fun g =>
  let (w, g) := Generator.next g
  (⟨w⟩, g)

def bit : Sampler γ Bool := fun g =>
  let (w, g) := Generator.next g
  (decide (0x80000000 ≤ w.toNat), g)

/-- One unit or none, each from half of the words. -/
def binary : Sampler γ Torus := fun g =>
  let (b, g) := bit g
  (.ofBool b, g)

end Sampler

/-! ## Generators from streams of words -/

namespace Generator

variable {γ : Type}

/-- Two words as one of 64 bits, the low half first. -/
def wordPair (next : Sampler γ UInt32) : Sampler γ UInt64 := fun g =>
  let (low, g) := next g
  let (high, g) := next g
  (low.toUInt64 ||| high.toUInt64 <<< 32, g)

/-- The number of words that hold `count` bytes. -/
def wordCount (count : Nat) : Nat :=
  (count + 3) / 4

/-- The bytes of as many words as hold them, the least significant byte of a word first.  What is
left of the last word is lost. -/
def wordBytes (next : Sampler γ UInt32) (count : Nat) : Sampler γ (Vector UInt8 count) := fun g =>
  let (words, g) := Sampler.repeated next (wordCount count) g
  (Vector.ofFn fun i => (words.getD (i / 4) 0 >>> UInt32.ofNat (8 * (i % 4))).toUInt8, g)

/-- The generator that takes everything from a stream of words. -/
@[reducible] def ofWords (next : Sampler γ UInt32) : Generator γ :=
  ⟨next, wordPair next, wordBytes next⟩

end Generator

/-- A list of words, taken in turn for ever; no words at all are taken as zeros. -/
structure CyclicWords where
  words : Array UInt32
  position : Nat := 0

instance : Generator CyclicWords :=
  .ofWords fun c =>
    (c.words.getD c.position 0, { c with position := (c.position + 1) % c.words.size })

/-! ## Generators from generators -/

section Sum

variable {γ δ α : Type}

/-- Draws from whichever of two generators there is. -/
def Sampler.either (left : Sampler γ α) (right : Sampler δ α) : Sampler (γ ⊕ δ) α
  | .inl g => let (a, g) := left g; (a, .inl g)
  | .inr d => let (a, d) := right d; (a, .inr d)

instance [Generator γ] [Generator δ] : Generator (γ ⊕ δ) where
  next := .either Generator.next Generator.next
  next64 := .either Generator.next64 Generator.next64
  fill count := .either (Generator.fill count) (Generator.fill count)

end Sum

/-- A generator together with the number of words taken from it.  A word of 64 bits counts as two,
and bytes count as the words that hold them. -/
structure Metered (γ : Type) where
  source : γ
  drawn : Nat := 0

section Metered

variable {γ α : Type}

/-- Draws from the source what counts as `words` words. -/
def Sampler.metered (s : Sampler γ α) (words : Nat) : Sampler (Metered γ) α := fun m =>
  let (a, source) := s m.source
  (a, ⟨source, m.drawn + words⟩)

instance [Generator γ] : Generator (Metered γ) where
  next := Sampler.metered Generator.next 1
  next64 := Sampler.metered Generator.next64 2
  fill count := Sampler.metered (Generator.fill count) (Generator.wordCount count)

end Metered

end TorusFHE
