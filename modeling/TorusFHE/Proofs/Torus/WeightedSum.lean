import TorusFHE.Proofs.Torus.Vector

/-!
# Weighted sums of vectors

A weighted sum takes its length from its first vector and adds the others in turn, so it exists
exactly where all vectors have one length and there is a weight for each.  No vectors have the empty
vector as their sum, whatever length the caller has in mind.

* `TorusVec.Rectangular`: vectors of one length;
* `TorusVec.weightedSum_succeeds_iff`: which vectors and weights have a weighted sum;
* `TorusVec.eq_of_inner_eq`: a vector is told by its products with all vectors of its length;
* `TorusVec.weightedSum_eq_ok_iff`: a weighted sum by its length and its products.

The last of these makes the laws of the inner product those of the weighted sum, which is therefore
linear in the weights and in the vectors.
-/

namespace TorusFHE

namespace TorusVec

variable {v w s x : TorusVec} {vs us : List TorusVec}

/-! ## Vectors of one length -/

/-- All the vectors have one length, which no vectors leave open. -/
def Rectangular (vs : List TorusVec) : Prop :=
  ∀ v ∈ vs, ∀ u ∈ vs, v.length = u.length

instance (vs : List TorusVec) : Decidable (Rectangular vs) :=
  inferInstanceAs (Decidable (∀ v ∈ vs, ∀ u ∈ vs, v.length = u.length))

/-- The first vector sets the length of the others. -/
theorem rectangular_cons_iff : Rectangular (v :: vs) ↔ ∀ u ∈ vs, u.length = v.length := by
  constructor
  · intro h u hu
    exact h u (by simp [hu]) v (by simp)
  · intro h
    have hfirst : ∀ u ∈ v :: vs, u.length = v.length := List.forall_mem_cons.2 ⟨rfl, h⟩
    intro u hu u' hu'
    rw [hfirst u hu, hfirst u' hu']

theorem rectangular_iff_map_length :
    Rectangular vs ↔ ∀ n ∈ vs.map List.length, ∀ m ∈ vs.map List.length, n = m := by
  simp only [Rectangular, List.forall_mem_map]

@[simp] theorem length_scale (v : TorusVec) (c : Torus) : (v.scale c).length = v.length :=
  List.length_map _

/-- Scaling leaves lengths alone. -/
theorem rectangular_zipWith_scale (h : vs.length = w.length) :
    Rectangular (List.zipWith scale vs w) ↔ Rectangular vs := by
  have hlengths : (List.zipWith scale vs w).map List.length = vs.map List.length := by
    apply List.ext_getElem
    · simp [h]
    · intro i _ _
      simp
  rw [rectangular_iff_map_length, hlengths, ← rectangular_iff_map_length]

/-- Vectors can be added to another one after the other exactly if they have its length: the sum so
far keeps it, so that it is what each of them meets. -/
theorem foldlM_add_succeeds_iff :
    (∃ x, vs.foldlM add v = .ok x) ↔ ∀ u ∈ vs, u.length = v.length := by
  constructor
  · rintro ⟨x, hx⟩
    induction vs generalizing v with
    | nil => simp
    | cons u vs ih =>
      rw [List.foldlM_cons, bind_eq_ok_iff] at hx
      rcases hx with ⟨sum, hadd, hx⟩
      rcases add_eq_ok_iff.1 hadd with ⟨hlen, rfl⟩
      have hsum : (List.zipWith (· + ·) v u).length = v.length := by simp [← hlen]
      have hrest := ih hx
      rw [hsum] at hrest
      exact List.forall_mem_cons.2 ⟨hlen.symm, hrest⟩
  · intro h
    rcases foldlM_add h rfl with ⟨x, hx, -, -⟩
    exact ⟨x, hx⟩

theorem sum_succeeds_iff : (∃ x, sum vs = .ok x) ↔ Rectangular vs := by
  cases vs with
  | nil => simp [sum, Rectangular]
  | cons v vs => exact foldlM_add_succeeds_iff.trans rectangular_cons_iff.symm

/-- There is a weighted sum exactly if there is a weight for each vector and the vectors have one
length. -/
theorem weightedSum_succeeds_iff :
    (∃ x, weightedSum vs w = .ok x) ↔ vs.length = w.length ∧ Rectangular vs := by
  constructor
  · rintro ⟨x, hx⟩
    rcases bind_eq_ok_iff.1 hx with ⟨scaled, hscaled, hsum⟩
    rcases zipExact_eq_ok_iff.1 hscaled with ⟨hlen, rfl⟩
    exact ⟨hlen, (rectangular_zipWith_scale hlen).1 (sum_succeeds_iff.1 ⟨x, hsum⟩)⟩
  · rintro ⟨hlen, hvs⟩
    rcases sum_succeeds_iff.2 ((rectangular_zipWith_scale hlen).2 hvs) with ⟨x, hsum⟩
    exact ⟨x, bind_eq_ok_iff.2 ⟨_, zipExact_of_length hlen, hsum⟩⟩

/-! ## Vectors by their products -/

/-- Vectors of one length that have the same product with every vector of that length are equal. -/
theorem eq_of_inner_eq (h : v.length = w.length)
    (hinner : ∀ s : TorusVec, s.length = v.length → inner v s = inner w s) : v = w := by
  induction v generalizing w with
  | nil => exact (List.length_eq_zero_iff.1 h.symm).symm
  | cons x v ih =>
    cases w with
    | nil => simp at h
    | cons y w =>
      -- A one in front of zeros reads the first entry, a zero in front leaves the others.
      have hhead : x = y := by
        have hone := hinner (1 :: zeros v.length) (by simp [zeros])
        simpa [inner_comm _ (zeros _), inner_zeros] using hone
      have htail : v = w := by
        apply ih (by simpa using h)
        intro s hs
        have hzero := hinner (0 :: s) (by simp [hs])
        simpa using hzero
      rw [hhead, htail]

/-- A vector is the weighted sum of others exactly if its length is theirs, there is a weight for
each, and each of its products is the weighted sum of their products. -/
theorem weightedSum_eq_ok_iff :
    weightedSum vs w = .ok x ↔
      vs.length = w.length ∧ (∀ v ∈ vs, v.length = x.length) ∧ (vs = [] → x = []) ∧
        ∀ s : TorusVec, s.length = x.length → inner x s = inner w (vs.map (inner · s)) := by
  constructor
  · intro hx
    rcases weightedSum_succeeds_iff.1 ⟨x, hx⟩ with ⟨hlen, hvs⟩
    cases vs with
    | nil =>
      have hw : w = [] := List.length_eq_zero_iff.1 hlen.symm
      subst hw
      have hempty : x = [] := (Except.ok.inj hx).symm
      simp [hempty]
    | cons v vs =>
      have hlengths : ∀ u ∈ v :: vs, u.length = v.length := fun u hu => hvs u hu v (by simp)
      rcases weightedSum_inner (by simp) hlengths hlen with ⟨y, hy, hylen, hinner⟩
      have hxy : x = y := Except.ok.inj (hx.symm.trans hy)
      subst hxy
      refine ⟨hlen, ?_, by simp, fun s _ => hinner s⟩
      rw [hylen]
      exact hlengths
  · rintro ⟨hlen, hlengths, hempty, hproducts⟩
    rcases eq_or_ne vs [] with rfl | hne
    · have hw : w = [] := List.length_eq_zero_iff.1 hlen.symm
      rw [hw, hempty rfl]
      rfl
    · rcases weightedSum_inner hne hlengths hlen with ⟨y, hy, hylen, hinner⟩
      have hyx : y = x := by
        refine eq_of_inner_eq hylen fun s hs => ?_
        rw [hinner, hproducts s (by rw [hs, hylen])]
      rw [hy, hyx]

/-! ## Linearity in weights and vectors -/

/-- The sum of a vector and a multiple of another, entry by entry. -/
def addScaled (c : Torus) (v w : TorusVec) : TorusVec :=
  List.zipWith (· + ·) v (w.scale c)

theorem length_addScaled (h : v.length = w.length) (c : Torus) :
    (addScaled c v w).length = v.length := by
  simp [addScaled, h]

theorem inner_addScaled (h : v.length = w.length) (c : Torus) (s : TorusVec) :
    inner (addScaled c v w) s = inner v s + c * inner w s := by
  rw [addScaled, inner_zipWith_add (by simp [h]), inner_scale]

theorem inner_addScaled_right (h : v.length = w.length) (c : Torus) (s : TorusVec) :
    inner s (addScaled c v w) = inner s v + c * inner s w := by
  rw [inner_comm, inner_addScaled h, inner_comm v, inner_comm w]

/-- The products of combined vectors are the combined products. -/
theorem map_inner_zipWith_addScaled {n : Nat} (hvs : ∀ v ∈ vs, v.length = n)
    (hus : ∀ u ∈ us, u.length = n) (c : Torus) (s : TorusVec) :
    (List.zipWith (addScaled c) vs us).map (inner · s) =
      addScaled c (vs.map (inner · s)) (us.map (inner · s)) := by
  induction vs generalizing us with
  | nil => rfl
  | cons v vs ih =>
    cases us with
    | nil => rfl
    | cons u us =>
      have hvu : v.length = u.length := by rw [hvs v (by simp), hus u (by simp)]
      have hhead : inner (addScaled c v u) s = inner v s + inner u s * c := by
        rw [inner_addScaled hvu, mul_comm]
      have htail : (List.zipWith (addScaled c) vs us).map (inner · s) =
          addScaled c (vs.map (inner · s)) (us.map (inner · s)) :=
        ih (fun v' hv' => hvs v' (by simp [hv'])) fun u' hu' => hus u' (by simp [hu'])
      calc
        (List.zipWith (addScaled c) (v :: vs) (u :: us)).map (inner · s)
            = inner (addScaled c v u) s :: (List.zipWith (addScaled c) vs us).map (inner · s) := rfl
        _ = (inner v s + inner u s * c) ::
              addScaled c (vs.map (inner · s)) (us.map (inner · s)) := by rw [hhead, htail]
        _ = addScaled c ((v :: vs).map (inner · s)) ((u :: us).map (inner · s)) := rfl

/-- A weighted sum is linear in the weights. -/
theorem weightedSum_addScaled_weights {w' x' : TorusVec} (hx : weightedSum vs w = .ok x)
    (hx' : weightedSum vs w' = .ok x') (c : Torus) :
    weightedSum vs (addScaled c w w') = .ok (addScaled c x x') := by
  rcases weightedSum_eq_ok_iff.1 hx with ⟨hlen, hlengths, hempty, hproducts⟩
  rcases weightedSum_eq_ok_iff.1 hx' with ⟨hlen', hlengths', hempty', hproducts'⟩
  have hw : w.length = w'.length := by rw [← hlen, hlen']
  have hxx' : x.length = x'.length := by
    cases vs with
    | nil => rw [hempty rfl, hempty' rfl]
    | cons v vs => rw [← hlengths v (by simp), hlengths' v (by simp)]
  have hsum : (addScaled c x x').length = x.length := length_addScaled hxx' c
  refine weightedSum_eq_ok_iff.2 ⟨?_, ?_, ?_, ?_⟩
  · rw [length_addScaled hw, hlen]
  · rw [hsum]
    exact hlengths
  · intro hvs
    rw [hempty hvs]
    rfl
  · intro s hs
    rw [hsum] at hs
    rw [inner_addScaled hxx', inner_addScaled hw, hproducts s hs, hproducts' s (by rw [hs, hxx'])]

/-- A weighted sum is linear in the vectors, where their lengths agree. -/
theorem weightedSum_addScaled_vectors {x' : TorusVec} (hx : weightedSum vs w = .ok x)
    (hx' : weightedSum us w = .ok x') (hxx' : x.length = x'.length) (c : Torus) :
    weightedSum (List.zipWith (addScaled c) vs us) w = .ok (addScaled c x x') := by
  rcases weightedSum_eq_ok_iff.1 hx with ⟨hlen, hlengths, hempty, hproducts⟩
  rcases weightedSum_eq_ok_iff.1 hx' with ⟨hlen', hlengths', hempty', hproducts'⟩
  have hvsus : vs.length = us.length := by rw [hlen, hlen']
  have hlengths_us : ∀ u ∈ us, u.length = x.length := fun u hu => by rw [hlengths' u hu, hxx']
  have hsum : (addScaled c x x').length = x.length := length_addScaled hxx' c
  refine weightedSum_eq_ok_iff.2 ⟨by simp [← hvsus, hlen], ?_, ?_, ?_⟩
  · intro y hy
    rcases List.mem_iff_getElem.1 hy with ⟨i, hi, rfl⟩
    simp only [List.length_zipWith, lt_min_iff] at hi
    have hv : vs[i].length = x.length := hlengths _ (List.getElem_mem hi.1)
    have hu : us[i].length = x.length := hlengths_us _ (List.getElem_mem hi.2)
    rw [List.getElem_zipWith, length_addScaled (by rw [hv, hu]), hv, hsum]
  · intro hnone
    have hvs : vs = [] := by
      rcases List.zipWith_eq_nil_iff.1 hnone with hvs | hus
      · exact hvs
      · exact List.length_eq_zero_iff.1 (by rw [hvsus, hus, List.length_nil])
    rw [hempty hvs]
    rfl
  · intro s hs
    rw [hsum] at hs
    rw [map_inner_zipWith_addScaled hlengths hlengths_us,
      inner_addScaled_right (by simp [hvsus]), inner_addScaled hxx', hproducts s hs,
      hproducts' s (by rw [hs, hxx'])]

/-! ## The laws of the weighted sum -/

/-- The weighted sum is strict on shapes and bilinear.  It exists exactly if there is a weight for
each vector and the vectors have one length, and then its product with a vector of that length is
the weighted sum of the products. -/
theorem weightedSum_strict_bilinear (vs : List TorusVec) (w : TorusVec) :
    ((∃ x, weightedSum vs w = .ok x) ↔ vs.length = w.length ∧ Rectangular vs) ∧
      weightedSum [] [] = .ok [] ∧
      ∀ x, weightedSum vs w = .ok x →
        (∀ v ∈ vs, v.length = x.length) ∧
        (∀ s : TorusVec, s.length = x.length →
          ∃ products, vs.mapM (dot · s) = .ok products ∧
            dot x s = .ok (∑ i ∈ Finset.range vs.length, w.getD i 0 * products.getD i 0)) ∧
        (∀ c w' x', weightedSum vs w' = .ok x' →
          weightedSum vs (addScaled c w w') = .ok (addScaled c x x')) ∧
        ∀ c us x', weightedSum us w = .ok x' → x.length = x'.length →
          weightedSum (List.zipWith (addScaled c) vs us) w = .ok (addScaled c x x') := by
  refine ⟨weightedSum_succeeds_iff, rfl, ?_⟩
  intro x hx
  rcases weightedSum_eq_ok_iff.1 hx with ⟨hlen, hlengths, -, hproducts⟩
  refine ⟨hlengths, ?_, fun c w' x' hx' => weightedSum_addScaled_weights hx hx' c,
    fun c us x' hx' hxx' => weightedSum_addScaled_vectors hx hx' hxx' c⟩
  intro s hs
  have hdots : ∀ v ∈ vs, dot v s = .ok (inner v s) := by
    intro v hv
    exact dot_eq_ok_iff.2 ⟨by rw [hlengths v hv, hs], rfl⟩
  refine ⟨vs.map (inner · s), mapM_eq_ok hdots, dot_eq_ok_iff.2 ⟨hs.symm, ?_⟩⟩
  have hweights : w.length = (vs.map (inner · s)).length := by rw [List.length_map, hlen]
  have hrange := inner_map_eq_sum_range id hweights
  rw [List.map_id, ← hlen] at hrange
  rw [hproducts s hs, hrange]
  rfl

/-- Weights that wrap, with other weights and other vectors added; two lengths have no weighted
sum. -/
theorem weightedSum_strict_bilinear_wrapping :
    let vs : List TorusVec := [[3, ⟨0x80000000⟩], [5, ⟨0xffffffff⟩], [7, 2]]
    let us : List TorusVec := [[1, 0], [⟨0x80000000⟩, 9], [2, 6]]
    let w : TorusVec := [⟨0xffffffff⟩, ⟨0x80000001⟩, 4]
    let w' : TorusVec := [2, 1, ⟨0x40000000⟩]
    let x : TorusVec := [⟨0x8000001e⟩, 7]
    weightedSum vs w = .ok x ∧
      dot x [2, ⟨0x80000003⟩] = .ok ⟨0x80000051⟩ ∧
      weightedSum vs (addScaled 3 w w') = .ok (addScaled 3 x [⟨0xc000000b⟩, ⟨0x7fffffff⟩]) ∧
      weightedSum (List.zipWith (addScaled 3) vs us) w =
        .ok (addScaled 3 x [⟨0x80000007⟩, ⟨0x80000021⟩]) ∧
      ¬∃ y, weightedSum [[1], [1, 2]] [1, 1] = .ok y := by
  intro vs us w w' x
  have hx : weightedSum vs w = .ok x := by decide
  rcases (weightedSum_strict_bilinear vs w).2.2 x hx with ⟨-, hproducts, hweights, hvectors⟩
  rcases hproducts [2, ⟨0x80000003⟩] rfl with ⟨products, hmap, hdot⟩
  have hvalues : products = [⟨0x80000006⟩, ⟨0x80000007⟩, 20] :=
    Except.ok.inj (hmap.symm.trans (by decide))
  subst hvalues
  refine ⟨hx, hdot.trans (by decide), hweights 3 w' _ (by decide), hvectors 3 us _ (by decide) rfl,
    ?_⟩
  rw [(weightedSum_strict_bilinear _ _).1]
  decide

end TorusVec

end TorusFHE
