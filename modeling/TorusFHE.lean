import TorusFHE.Engine
import TorusFHE.Fault
import TorusFHE.Fourier.BitReversal
import TorusFHE.Fourier.Butterfly
import TorusFHE.Fourier.InPlace
import TorusFHE.Fourier.Layers
import TorusFHE.Fourier.Scalar
import TorusFHE.Fourier.Swaps
import TorusFHE.Fourier.Transform
import TorusFHE.Glwe.Ggsw
import TorusFHE.Glwe.InPlace
import TorusFHE.Glwe.Sample
import TorusFHE.Lwe.KeySwitch
import TorusFHE.Lwe.Sample
import TorusFHE.Lwe.SubsetSum
import TorusFHE.Proofs.Engine
import TorusFHE.Proofs.Engine.Operation
import TorusFHE.Proofs.Fault
import TorusFHE.Proofs.Fourier.BitReversal
import TorusFHE.Proofs.Fourier.Butterfly
import TorusFHE.Proofs.Fourier.Evaluation
import TorusFHE.Proofs.Fourier.InPlace
import TorusFHE.Proofs.Fourier.Layers
import TorusFHE.Proofs.Fourier.Product
import TorusFHE.Proofs.Fourier.Scalar
import TorusFHE.Proofs.Fourier.Swaps
import TorusFHE.Proofs.Fourier.Transform
import TorusFHE.Proofs.Glwe.Blocks
import TorusFHE.Proofs.Glwe.Decryption
import TorusFHE.Proofs.Glwe.ExactProduct
import TorusFHE.Proofs.Glwe.Ggsw
import TorusFHE.Proofs.Glwe.InPlace
import TorusFHE.Proofs.Glwe.Phase
import TorusFHE.Proofs.Lwe.KeySwitch
import TorusFHE.Proofs.Lwe.Parallel
import TorusFHE.Proofs.Lwe.Phase
import TorusFHE.Proofs.Lwe.Selection
import TorusFHE.Proofs.Lwe.SubsetSum
import TorusFHE.Proofs.Random.ChaCha20
import TorusFHE.Proofs.Random.Draw
import TorusFHE.Proofs.Random.InStep
import TorusFHE.Proofs.Random.Requests
import TorusFHE.Proofs.Real.Binary64
import TorusFHE.Proofs.Real.Rounding
import TorusFHE.Proofs.Scheme.ClientKey
import TorusFHE.Proofs.Scheme.CompressedPublicKey
import TorusFHE.Proofs.Scheme.Derivation
import TorusFHE.Proofs.Scheme.Independence
import TorusFHE.Proofs.Scheme.KeyGeneration
import TorusFHE.Proofs.Scheme.KeyPair
import TorusFHE.Proofs.Scheme.Negation
import TorusFHE.Proofs.Scheme.Parameters
import TorusFHE.Proofs.Scheme.ProductRange
import TorusFHE.Proofs.Scheme.PublicKey
import TorusFHE.Proofs.Scheme.Requests
import TorusFHE.Proofs.Scheme.ServerKey
import TorusFHE.Proofs.Scheme.Validation
import TorusFHE.Proofs.Torus.BalancedDigits
import TorusFHE.Proofs.Torus.Gadget
import TorusFHE.Proofs.Torus.Negacyclic
import TorusFHE.Proofs.Torus.Polynomial
import TorusFHE.Proofs.Torus.Real
import TorusFHE.Proofs.Torus.Ring
import TorusFHE.Proofs.Torus.Rounding
import TorusFHE.Proofs.Torus.Vector
import TorusFHE.Proofs.Torus.WeightedSum
import TorusFHE.Proofs.Torus.WordGadget
import TorusFHE.Proofs.Wire.Buffer
import TorusFHE.Proofs.Wire.Damage
import TorusFHE.Proofs.Wire.FirstViolation
import TorusFHE.Proofs.Wire.Format
import TorusFHE.Proofs.Wire.Generated
import TorusFHE.Proofs.Wire.Objects
import TorusFHE.Proofs.Wire.Reader
import TorusFHE.Proofs.Wire.Session
import TorusFHE.Proofs.Wire.Shape
import TorusFHE.Proofs.Wire.Size
import TorusFHE.Proofs.Wire.Usable
import TorusFHE.Proofs.Wire.WordShape
import TorusFHE.Random.ChaCha20
import TorusFHE.Random.Generator
import TorusFHE.Random.Normal
import TorusFHE.Random.ZigguratTables
import TorusFHE.Real.Binary64
import TorusFHE.Real.Decimal
import TorusFHE.Scheme.Ciphertext
import TorusFHE.Scheme.ClientKey
import TorusFHE.Scheme.Error
import TorusFHE.Scheme.Parameters
import TorusFHE.Scheme.Preset
import TorusFHE.Scheme.PublicKey
import TorusFHE.Scheme.ServerKey
import TorusFHE.Scheme.WordParameters
import TorusFHE.Torus.Basic
import TorusFHE.Torus.Gadget
import TorusFHE.Torus.Polynomial
import TorusFHE.Torus.Real
import TorusFHE.Torus.Vector
import TorusFHE.Torus.WordGadget
import TorusFHE.Wire.Buffer
import TorusFHE.Wire.Format
import TorusFHE.Wire.Objects
import TorusFHE.Wire.Reader
import TorusFHE.Wire.Shape
import TorusFHE.Wire.WordShape
