import CounterRng.Threefry.Decipher
import CounterRng.Threefish
import CounterRng.SeedSource.EntropyPool
import CounterRng.Limbs.Checked
import CounterRng.SeedSource.Checked
import CounterRng.Keystream.Child
import CounterRng.Keystream.Stream
import CounterRng.Keystream.Checked
import CounterRng.SeededSource
import CounterRng.AnyEngine
import CounterRng.Proofs.Counting
import CounterRng.Proofs.BulkAddition
import CounterRng.Proofs.Lockstep
import CounterRng.Proofs.Draws
import CounterRng.Proofs.Threefry.Permutation
import CounterRng.Proofs.Keystream.Operation
import CounterRng.Proofs.Keystream.Position
import CounterRng.Proofs.Keystream.Discard
import CounterRng.Proofs.Keystream.Refinement
import CounterRng.Proofs.Keystream.Congruence
import CounterRng.Proofs.Threefry.ThreefishForm
import CounterRng.Proofs.Keystream.Derivation
import CounterRng.Proofs.Keystream.Period
import CounterRng.Proofs.WordStream
import CounterRng.Proofs.Session
import CounterRng.Proofs.Nesting
import CounterRng.Proofs.Digest
import CounterRng.Proofs.Lineage
import CounterRng.Proofs.Keystream.Shift
import CounterRng.Proofs.Keystream.Safety
import CounterRng.Proofs.Codec
import CounterRng.Proofs.SeedSource.Stirring
import CounterRng.Proofs.SeedSource.Filling
import CounterRng.Proofs.Keystream.Seeding
import CounterRng.Proofs.Keystream.Child
import CounterRng.Proofs.SeededSource
