import TorusFHE.Proofs.Torus.Rounding

/-!
# The digits are the only balanced ones

Digits within half the base do not determine themselves: half the base may stand, or may be carried
to leave minus half.  The carry settles every such tie by the next digit above.  Half the base
stands below a digit from zero on, minus half below a digit up to zero, and the first digit is never
minus half.  With these ties settled, a rounded angle has one string of digits only.

The proof counts digits from the least significant one on, as decomposition cuts them.

* `Gadget.balanced_digitsFrom`: decomposition settles every tie, whatever is carried later;
* `Balanced.eq_of_modEq`: digits with settled ties are determined by their value, turns dropped;
* `Gadget.isBalanced_iff`: the digits of an angle are the only balanced ones.
-/

namespace TorusFHE

/-- How a tie in a digit is settled by the digit above it. -/
structure TieSettled (half upper lower : Int) : Prop where
  of_half : lower = half → 0 ≤ upper ∧ upper < half
  of_neg_half : lower = -half → -half < upper ∧ upper ≤ 0

/-! ## Digits, the least significant first -/

/-- The value of digits, the least significant first. -/
def digitValue (base : Int) : List Int → Int
  | [] => 0
  | x :: xs => x + base * digitValue base xs

theorem digitValue_cons_sub_cons (base x y : Int) (xs ys : List Int) :
    digitValue base (x :: xs) - digitValue base (y :: ys) =
      x - y + base * (digitValue base xs - digitValue base ys) := by
  simp only [digitValue]
  ring

/-- Digits within half the base, the least significant first, with every tie settled. -/
structure Balanced (half : Int) (xs : List Int) : Prop where
  bounded : ∀ x ∈ xs, -half ≤ x ∧ x ≤ half
  ties : xs.IsChain fun lower upper => TieSettled half upper lower
  last : xs.getLast? ≠ some (-half)

namespace Balanced

variable {half x : Int} {xs ys : List Int}

theorem nil (half : Int) : Balanced half [] where
  bounded := by simp
  ties := .nil
  last := by simp

theorem tail (h : Balanced half (x :: xs)) : Balanced half xs where
  bounded y hy := h.bounded y (List.mem_cons_of_mem x hy)
  ties := h.ties.tail
  last := by
    cases xs with
    | nil => simp
    | cons y ys => simpa [List.getLast?_cons_cons] using h.last

/-- Half the base and minus half never begin digits of one value: what one of them carries, the
digits above would have to make up for. -/
theorem half_ne_neg_half (hhalf : 0 < half) (hx : Balanced half (half :: xs))
    (hy : Balanced half (-half :: ys)) (hlen : xs.length = ys.length)
    (hvalue : digitValue (2 * half) (half :: xs) ≡ digitValue (2 * half) (-half :: ys)
      [ZMOD (2 * half) ^ (xs.length + 1)]) : False := by
  match xs, ys, hlen with
  | [], [], _ => exact hy.last rfl
  | x :: xs, y :: ys, _ =>
    have hxs : 0 ≤ x ∧ x < half := ((List.isChain_cons_cons.1 hx.ties).1).of_half rfl
    have hys : -half < y ∧ y ≤ 0 := ((List.isChain_cons_cons.1 hy.ties).1).of_neg_half rfl
    -- Two digits are enough to tell the values apart.
    have hsquare : (2 * half) ^ 2 ∣
        digitValue (2 * half) (half :: x :: xs) - digitValue (2 * half) (-half :: y :: ys) :=
      (pow_dvd_pow _ (by simp)).trans hvalue.symm.dvd
    have hsplit : digitValue (2 * half) (half :: x :: xs) -
        digitValue (2 * half) (-half :: y :: ys) = 2 * half * (1 + x - y +
          2 * half * (digitValue (2 * half) xs - digitValue (2 * half) ys)) := by
      rw [digitValue_cons_sub_cons, digitValue_cons_sub_cons]
      ring
    rw [hsplit, sq, Int.mul_dvd_mul_iff_left (by omega), Int.dvd_add_left ⟨_, rfl⟩] at hsquare
    have hle : 2 * half ≤ 1 + x - y := Int.le_of_dvd (by omega) hsquare
    omega

/-- Digits with settled ties are determined by their value, multiples of the weight behind the last
digit dropped. -/
theorem eq_of_modEq (hhalf : 0 < half) (hx : Balanced half xs) (hy : Balanced half ys)
    (hlen : xs.length = ys.length)
    (hvalue : digitValue (2 * half) xs ≡ digitValue (2 * half) ys [ZMOD (2 * half) ^ xs.length]) :
    xs = ys := by
  induction xs generalizing ys with
  | nil => exact (List.length_eq_zero_iff.1 hlen.symm).symm
  | cons x xs ih =>
    cases ys with
    | nil => simp at hlen
    | cons y ys =>
      have htail : xs.length = ys.length := by simpa using hlen
      have hxb : -half ≤ x ∧ x ≤ half := hx.bounded x (by simp)
      have hyb : -half ≤ y ∧ y ≤ half := hy.bounded y (by simp)
      -- The first digits agree up to a multiple of the base.
      have hdvd : 2 * half ∣ x - y := by
        have hbase : 2 * half ∣ digitValue (2 * half) (x :: xs) - digitValue (2 * half) (y :: ys) :=
          (dvd_pow_self _ (by simp)).trans hvalue.symm.dvd
        rwa [digitValue_cons_sub_cons, Int.dvd_add_left ⟨_, rfl⟩] at hbase
      rcases hdvd with ⟨k, hk⟩
      have hcases : x = y ∨ (x = half ∧ y = -half) ∨ (x = -half ∧ y = half) := by
        have hlow : -1 ≤ k := by nlinarith
        have hhigh : k ≤ 1 := by nlinarith
        obtain rfl | rfl | rfl : k = -1 ∨ k = 0 ∨ k = 1 := by omega
        all_goals omega
      rcases hcases with rfl | ⟨rfl, rfl⟩ | ⟨rfl, rfl⟩
      · have hrest : digitValue (2 * half) xs ≡ digitValue (2 * half) ys
            [ZMOD (2 * half) ^ xs.length] := by
          have hadd := Int.ModEq.add_left_cancel' x hvalue
          rw [List.length_cons, pow_succ'] at hadd
          exact Int.ModEq.mul_left_cancel' (by omega) hadd
        rw [ih hx.tail hy.tail htail hrest]
      · exact (half_ne_neg_half hhalf hx hy htail hvalue).elim
      · rw [List.length_cons, htail] at hvalue
        exact (half_ne_neg_half hhalf hy hx htail.symm hvalue.symm).elim

end Balanced

namespace Gadget

variable (g : Gadget)

/-! ## Decomposition settles every tie -/

theorem carry_of_lt {limb : Nat} (h : limb < g.half) (rest : Nat) : g.carry limb rest = 0 :=
  if_neg (by omega)

theorem carry_of_gt {limb : Nat} (h : g.half < limb) (rest : Nat) : g.carry limb rest = 1 :=
  if_pos (.inl h)

/-- Half the base is carried exactly if the next position is at least half. -/
theorem carry_half (rest : Nat) :
    g.carry g.half rest = if g.half ≤ rest % g.base then 1 else 0 := by
  simp [carry]

/-- The digit of a limb, and the digit above it: that one is cut from the next limb with the carry
added, and carries on its part. -/
theorem tieSettled_of_carry {limb rest up upper : Nat} (hlimb : limb < g.base)
    (hup : g.carry limb rest = up) (hupper : (rest + up) % g.base = upper) (above : Nat) :
    TieSettled g.half ((upper : Int) - g.carry upper above * g.base)
      ((limb : Int) - up * g.base) := by
  have hhalf : 0 < g.half := g.half_pos
  have hbase : g.base = 2 * g.half := g.base_eq_two_mul_half
  have hnext : rest % g.base < g.base := Nat.mod_lt _ g.base_pos
  rcases lt_trichotomy limb g.half with h | rfl | h
  · rw [g.carry_of_lt h] at hup
    subst hup
    constructor <;> omega
  · by_cases hrest : g.half ≤ rest % g.base
    · -- Minus half is left, and the next position is above half, or full and emptied by the carry.
      rw [carry_half, if_pos hrest] at hup
      subst hup
      rw [← Nat.mod_add_mod] at hupper
      rcases Nat.lt_or_eq_of_le (Nat.succ_le_of_lt hnext) with hlt | hfull
      · rw [Nat.mod_eq_of_lt hlt] at hupper
        rw [g.carry_of_gt (by omega)]
        constructor <;> omega
      · rw [Nat.succ_eq_add_one] at hfull
        rw [hfull, Nat.mod_self] at hupper
        rw [g.carry_of_lt (by omega)]
        constructor <;> omega
    · -- Half is left, and the next position is below half and carries nothing on.
      rw [carry_half, if_neg hrest] at hup
      subst hup
      rw [Nat.add_zero] at hupper
      rw [g.carry_of_lt (by omega)]
      constructor <;> omega
  · rw [g.carry_of_gt h] at hup
    subst hup
    constructor <;> omega

/-- Of at most one base in all, half the base is never carried. -/
theorem digit_ne_neg_half {units : Nat} (h : units ≤ g.base) :
    ((units % g.base : Nat) : Int) - g.carry (units % g.base) (units / g.base) * g.base ≠
      -g.half := by
  have hhalf : 0 < g.half := g.half_pos
  have hbase : g.base = 2 * g.half := g.base_eq_two_mul_half
  rcases lt_trichotomy (units % g.base) g.half with hlimb | hlimb | hlimb
  · rw [g.carry_of_lt hlimb]
    omega
  · have hlt : units < g.base := by
      refine lt_of_le_of_ne h fun hfull => ?_
      rw [hfull, Nat.mod_self] at hlimb
      omega
    rw [hlimb, Nat.div_eq_of_lt hlt, carry_half, Nat.zero_mod, if_neg (by omega)]
    omega
  · rw [g.carry_of_gt hlimb]
    omega

/-- Decomposition settles every tie. -/
theorem balanced_digitsFrom {count units : Nat} (h : units ≤ g.base ^ count) :
    Balanced g.half (g.digitsFrom count units) := by
  induction count generalizing units with
  | zero => exact .nil _
  | succ count ih =>
    have hlimb : units % g.base < g.base := Nat.mod_lt _ g.base_pos
    have hrest := ih (g.rest_add_carry_le h)
    refine ⟨fun x hx => abs_le.1 (g.abs_le_half_of_mem_digitsFrom hx), ?_, ?_⟩
    · rw [digitsFrom, List.isChain_cons]
      refine ⟨fun y hy => ?_, hrest.ties⟩
      cases count with
      | zero => simp [digitsFrom] at hy
      | succ count =>
        rw [digitsFrom, List.head?_cons, Option.mem_some_iff] at hy
        rw [← hy]
        exact g.tieSettled_of_carry hlimb rfl rfl _
    · cases count with
      | zero =>
        have hle : units ≤ g.base := by simpa using h
        have hne := g.digit_ne_neg_half hle
        rw [digitsFrom, digitsFrom, List.getLast?_singleton]
        exact fun hdigit => hne (Option.some.inj hdigit)
      | succ count =>
        have hlast := hrest.last
        rw [digitsFrom] at hlast ⊢
        rwa [digitsFrom, List.getLast?_cons_cons]

/-! ## The digits of an angle -/

/-- Digits of an angle, the most significant first: as many as there are levels, within half the
base, making up the rounded angle, and with every tie settled. -/
structure IsBalanced (v : Torus) (ds : List Int) : Prop where
  length : ds.length = g.levels
  bounded : ∀ d ∈ ds, -(g.half : Int) ≤ d ∧ d ≤ g.half
  recomposes : g.recompose ds ≡ (g.round v).toNat [ZMOD 2 ^ 32]
  ties : ds.IsChain (TieSettled g.half)
  first : ds.head? ≠ some (-(g.half : Int))

variable {g} {v : Torus} {ds : List Int}

theorem IsBalanced.balanced_reverse (h : g.IsBalanced v ds) : Balanced g.half ds.reverse where
  bounded d hd := h.bounded d (List.mem_reverse.1 hd)
  ties := List.isChain_reverse.2 h.ties
  last := by
    rw [List.getLast?_reverse]
    exact h.first

variable (g)

/-- Digits weighed from `w` on, the least significant first, make up their value in weights `w`. -/
theorem inner_eq_mul_digitValue (xs : List Int) (w : Torus) :
    TorusVec.inner (xs.map Torus.ofInt)
        ((List.range xs.length).map fun t => w * (g.base : Torus) ^ t) =
      w * (digitValue g.base xs : Torus) := by
  induction xs generalizing w with
  | nil => simp [digitValue]
  | cons x xs ih =>
    rw [List.map_cons, List.length_cons, weights_succ, TorusVec.inner_cons_cons, ih, digitValue,
      ← Torus.intCast_def]
    push_cast
    ring

/-- What digits make up depends on their value only, multiples of the weight behind the last digit
dropped. -/
theorem digitValue_modEq {ds es : List Int} (hds : ds.length = g.levels)
    (hes : es.length = g.levels) (h : g.recompose ds ≡ g.recompose es [ZMOD 2 ^ 32]) :
    digitValue g.base ds.reverse ≡ digitValue g.base es.reverse
      [ZMOD (g.base : Int) ^ g.levels] := by
  have hvalue : ∀ xs : List Int, xs.length = g.levels →
      (g.recompose xs : Torus) = ((g.lastWeight * digitValue g.base xs.reverse : Int) : Torus) := by
    intro xs hxs
    have hinner := g.inner_eq_mul_digitValue xs.reverse g.lastWeight
    rw [List.length_reverse, hxs, ← reverse_bases, List.map_reverse,
      TorusVec.inner_reverse (by simp [hxs]), List.reverse_reverse] at hinner
    rw [cast_recompose _ hxs, hinner]
    push_cast
    rfl
  have hcast : ((g.lastWeight * digitValue g.base ds.reverse : Int) : Torus) =
      ((g.lastWeight * digitValue g.base es.reverse : Int) : Torus) := by
    rw [← hvalue ds hds, ← hvalue es hes]
    exact Torus.intCast_eq_intCast_iff.2 h
  have hturn : (2 : Int) ^ 32 = g.lastWeight * (g.base : Int) ^ g.levels := by
    exact_mod_cast g.lastWeight_mul_base_pow.symm
  have hmod := Torus.intCast_eq_intCast_iff.1 hcast
  rw [hturn] at hmod
  exact Int.ModEq.mul_left_cancel' (by exact_mod_cast g.lastWeight_pos.ne') hmod

/-- An angle has one string of balanced digits at most. -/
theorem IsBalanced.unique {g : Gadget} {v : Torus} {ds es : List Int} (hds : g.IsBalanced v ds)
    (hes : g.IsBalanced v es) : ds = es := by
  have hhalf : (0 : Int) < g.half := by exact_mod_cast g.half_pos
  have hbase : (g.base : Int) = 2 * g.half := by exact_mod_cast g.base_eq_two_mul_half
  have hvalue := g.digitValue_modEq hds.length hes.length (hds.recomposes.trans hes.recomposes.symm)
  rw [hbase] at hvalue
  apply List.reverse_injective
  refine Balanced.eq_of_modEq hhalf hds.balanced_reverse hes.balanced_reverse ?_ ?_
  · rw [List.length_reverse, List.length_reverse, hds.length, hes.length]
  · rwa [List.length_reverse, hds.length]

/-- Unless the base is the whole turn, a digit is the signed number of units of its torus
element. -/
theorem map_centered_decompose (h : g.logBase ≤ 31) (v : Torus) :
    (g.decompose v).map Torus.centered = g.digits v := by
  have hhalf : g.half ≤ 2 ^ 30 := by
    rw [half_eq]
    exact Nat.pow_le_pow_right (by decide) (by omega)
  have hdigit : ∀ d ∈ g.digits v, (Torus.centered ∘ Torus.ofInt) d = id d := by
    intro d hd
    have hle := abs_le.1 (g.abs_le_half_of_mem_digits hd)
    rw [Function.comp_apply, ← Torus.intCast_def, Torus.centered_intCast]
    exact Int.bmod_eq_of_le (by omega) (by omega)
  rw [decompose, List.map_map, List.map_congr_left hdigit, List.map_id]

theorem isBalanced_digits (h : g.logBase ≤ 31) (v : Torus) : g.IsBalanced v (g.digits v) := by
  have hbalanced := g.balanced_digitsFrom (g.roundedUnits_le v)
  have hdigits : (g.digits v).reverse = g.digitsFrom g.levels (g.roundedUnits v) :=
    List.reverse_reverse _
  rw [← hdigits] at hbalanced
  refine ⟨g.length_digits v, fun d hd => hbalanced.bounded d (List.mem_reverse.2 hd), ?_,
    List.isChain_reverse.1 hbalanced.ties, ?_⟩
  · rw [← g.map_centered_decompose h]
    exact g.recompose_decompose v
  · rw [← List.getLast?_reverse]
    exact hbalanced.last

/-- To the base two, a tie is any digit but zero, and is settled below a zero. -/
theorem tieSettled_one_iff {upper lower : Int} (hupper : -1 ≤ upper ∧ upper ≤ 1)
    (hlower : -1 ≤ lower ∧ lower ≤ 1) : TieSettled 1 upper lower ↔ upper = 0 ∨ lower = 0 := by
  constructor
  · rintro ⟨hhalf, hneg⟩
    omega
  · intro h
    constructor <;> omega

/-- The digits of an angle are the only balanced ones.  To the base two the ties are settled where
no two adjacent digits are both other than zero. -/
theorem isBalanced_iff (h : g.logBase ≤ 31) (v : Torus) (ds : List Int) :
    (g.IsBalanced v ds ↔ ds = (g.decompose v).map Torus.centered) ∧
    (g.logBase = 1 → (∀ d ∈ ds, -(g.half : Int) ≤ d ∧ d ≤ g.half) →
      (ds.IsChain (TieSettled g.half) ↔ ds.IsChain fun upper lower => upper = 0 ∨ lower = 0)) := by
  rw [g.map_centered_decompose h]
  refine ⟨⟨fun hds => hds.unique (g.isBalanced_digits h v), ?_⟩, fun hbase hds => ?_⟩
  · rintro rfl
    exact g.isBalanced_digits h v
  · have hhalf : g.half = 1 := by rw [half_eq, hbase, Nat.sub_self, pow_zero]
    rw [hhalf] at hds ⊢
    exact List.IsChain.iff_of_mem_imp fun upper lower hupper hlower =>
      tieSettled_one_iff (hds upper hupper) (hds lower hlower)

/-- To the base four, `-1 * 4 - 2` and `-2 * 4 + 2` are the same part of a turn, and only the first
has its tie settled.  To the base two, digits with zeros between them have. -/
theorem isBalanced_iff_tie_carried :
    let g : Gadget := ⟨2, 2, by decide, by decide, by decide⟩
    let b : Gadget := ⟨1, 3, by decide, by decide, by decide⟩
    g.logBase ≤ 31 ∧ g.IsBalanced ⟨0xa0000000⟩ [-1, -2] ∧ ¬ g.IsBalanced ⟨0xa0000000⟩ [-2, 2] ∧
    b.logBase = 1 ∧ [1, 0, -1].IsChain (TieSettled b.half) := by
  intro g b
  have hg : g.logBase ≤ 31 := by decide
  have hb : b.logBase ≤ 31 := by decide
  refine ⟨hg, (isBalanced_iff g hg _ _).1.2 (by decide), fun h => ?_, rfl, ?_⟩
  · have hdigits := (isBalanced_iff g hg _ _).1.1 h
    exact absurd hdigits (by decide)
  · exact ((isBalanced_iff b hb 0 _).2 rfl (by decide)).2 (by decide)

end Gadget

end TorusFHE
