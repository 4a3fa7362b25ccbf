import TorusFHE.Proofs.Random.Requests
import TorusFHE.Scheme.PublicKey
import TorusFHE.Scheme.ServerKey

/-!
# Keys and ciphertexts are drawn by requests

The generation of keys and encryption are put together from samplers, steps without a draw and loops
over lists.  As long as the noise is drawn by requests only, so is all the rest, whatever the operands
and whether or not they fit.

* `ClientKey.generate_advances`, `ServerKey.generateWith_advances` and the like: keys;
* `ClientKey.encryptWith_advances`, `PublicKey.encrypt_advances` and the like: ciphertexts.
-/

namespace TorusFHE

variable {γ : Type} [Generator γ]

/-! ## Samples -/

section Samples

variable {noise : Sampler γ Torus} (hnoise : noise.Advances)

namespace LweKey

theorem generate_advances (n : Nat) : (generate n : Sampler γ LweKey).Advances :=
  Sampler.binary_advances.repeated n

include hnoise

theorem encryptWithMask_advances (s : LweKey) (m : Torus) (mask : TorusVec) :
    (s.encryptWithMask m mask noise).Advances :=
  (Draw.sample_advances hnoise).bind fun _ => (Draw.lift_advances _).map _

theorem encryptSeeded_advances (s : LweKey) (m : Torus) (seed : Seed) :
    (s.encryptSeeded m seed noise).Advances :=
  (encryptWithMask_advances hnoise s m _).map _

theorem encrypt_advances (s : LweKey) (m : Torus) : (s.encrypt m noise).Advances :=
  (Draw.sample_advances (Sampler.uniform_advances.repeated _)).bind
    (encryptWithMask_advances hnoise s m)

end LweKey

include hnoise in
theorem KeySwitchingKey.generate_advances (g : Gadget) (source : TorusVec) (target : LweKey) :
    (generate g source target noise).Advances :=
  (Draw.Advances.mapM (LweKey.encrypt_advances hnoise target) _).map _

namespace SubsetSum

theorem step_advances (acc zero : LweSample) : (step acc zero : Draw γ LweSample).Advances := by
  -- The word is taken whether or not the sample is selected.
  refine (Draw.sample_advances Sampler.bit_advances).bind fun b => ?_
  cases b with
  | false => exact .pure acc
  | true => exact Draw.lift_advances _

theorem encrypt_advances (n : Nat) (zeros : List LweSample) (m : Torus) :
    (encrypt n zeros m : Draw γ LweSample).Advances :=
  .foldlM step_advances zeros _

theorem addSeeded_advances (n : Nat) (acc : LweSample) (bodies : List Torus)
    (stream : ChaCha20.Stream) : (addSeeded n acc bodies stream : Draw γ LweSample).Advances := by
  induction bodies generalizing acc stream with
  | nil => exact .pure acc
  | cons b bodies ih => exact (step_advances acc _).bind fun sum => ih sum _

end SubsetSum

/-! ## Ring samples -/

namespace Glwe

theorem drawPolynomial_advances (n : Nat) {s : Sampler γ Torus} (hs : s.Advances) :
    (drawPolynomial n s).Advances :=
  (Draw.sample_advances (hs.repeated n)).bind fun _ => Draw.lift_advances _

include hnoise in
theorem encrypt_advances (s : MaskProduct) (m : Polynomial) : (encrypt s m noise).Advances := by
  refine (Draw.Advances.mapM (fun _ => drawPolynomial_advances _ Sampler.uniform_advances) _).bind
    fun mask => ?_
  refine (drawPolynomial_advances _ hnoise).bind fun e => ?_
  exact (Draw.lift_advances _).map _

end Glwe

theorem GlweKey.generate_advances (k n : Nat) : (generate k n : Draw γ GlweKey).Advances :=
  (Draw.Advances.mapM (fun _ => Glwe.drawPolynomial_advances n Sampler.binary_advances) _).map _

include hnoise in
theorem Ggsw.encrypt_advances (g : Gadget) (s : Glwe.MaskProduct) (m : Torus) :
    (encrypt g s m noise).Advances := by
  refine (Draw.Advances.mapM (fun target => ?_) _).map _
  refine (Draw.lift_advances _).bind fun zero => ?_
  exact (Glwe.encrypt_advances hnoise s zero).bind fun _ => Draw.lift_advances _

end Samples

/-! ## Keys -/

/-- Both kinds of noise are drawn by requests only. -/
structure Noise.Advances (noise : Noise γ) : Prop where
  lwe : noise.lwe.Advances
  glwe : noise.glwe.Advances

theorem Parameters.noise_advances (p : Parameters) : (p.noise : Noise γ).Advances :=
  ⟨gaussian_advances _, gaussian_advances _⟩

theorem ClientKey.generate_advances (p : Parameters) :
    (generate p : Draw γ (Except Error ClientKey)).Advances := by
  rw [generate]
  cases p.validate with
  | error e => exact .pure _
  | ok _ =>
    refine (Draw.sample_advances (LweKey.generate_advances p.n)).bind fun lweKey => ?_
    exact (GlweKey.generate_advances p.k p.degree).map _

variable {noise : Noise γ} (hnoise : noise.Advances)

namespace ServerKey

include hnoise

theorem generateOver_advances (product : Glwe.MaskProduct) (ck : ClientKey) :
    (generateOver product noise ck).Advances := by
  -- Gadgets are looked up without a draw, and a refused one ends the generation with a fault.
  refine (Draw.lift_advances _).bind fun pbs => ?_
  refine (Draw.Advances.mapM (Ggsw.encrypt_advances hnoise.glwe pbs product) _).bind fun _ => ?_
  refine (Draw.lift_advances _).bind fun ks => ?_
  exact (KeySwitchingKey.generate_advances hnoise.lwe ks _ ck.lweKey).map _

theorem generateWith_advances (ck : ClientKey) : (generateWith noise ck).Advances :=
  (Draw.lift_advances _).bind fun product => generateOver_advances hnoise product ck

end ServerKey

include hnoise in
theorem generateKeysWith_advances (p : Parameters) : (generateKeysWith noise p).Advances := by
  refine (ClientKey.generate_advances p).bind fun result => ?_
  cases result with
  | error e => exact .pure _
  | ok ck => exact (ServerKey.generateWith_advances hnoise ck).map _

include hnoise in
theorem PublicKey.generateWith_advances (ck : ClientKey) : (generateWith noise ck).Advances :=
  (Draw.Advances.mapM (LweKey.encrypt_advances hnoise.lwe ck.lweKey) _).map _

namespace CompressedPublicKey

include hnoise

theorem drawBodies_advances (s : LweKey) (n count : Nat) (acc : List Torus)
    (stream : ChaCha20.Stream) : (drawBodies noise s n count acc stream).Advances := by
  induction count generalizing acc stream with
  | zero => exact .pure _
  | succ count ih =>
    exact (LweKey.encryptWithMask_advances hnoise.lwe s 0 _).bind fun zero => ih _ _

theorem generateWith_advances (ck : ClientKey) : (generateWith noise ck).Advances :=
  (Draw.sample_advances Seed.draw_advances).bind fun _ =>
    (drawBodies_advances hnoise ck.lweKey _ _ _ _).map _

end CompressedPublicKey

/-! ## Ciphertexts -/

namespace ClientKey

include hnoise

theorem encryptWith_advances (ck : ClientKey) (m : Bool) : (ck.encryptWith noise m).Advances :=
  (LweKey.encrypt_advances hnoise.lwe ck.lweKey _).map _

theorem encryptCompressedWith_advances (ck : ClientKey) (m : Bool) :
    (ck.encryptCompressedWith noise m).Advances :=
  (Draw.sample_advances Seed.draw_advances).bind fun seed =>
    (LweKey.encryptSeeded_advances hnoise.lwe ck.lweKey _ seed).map _

end ClientKey

theorem PublicKey.encrypt_advances (pk : PublicKey) (m : Bool) :
    (pk.encrypt m : Draw γ Ciphertext).Advances :=
  (SubsetSum.encrypt_advances _ _ _).map _

theorem CompressedPublicKey.encrypt_advances (pk : CompressedPublicKey) (m : Bool) :
    (pk.encrypt m : Draw γ Ciphertext).Advances :=
  (SubsetSum.addSeeded_advances _ _ _ _).map _

end TorusFHE
