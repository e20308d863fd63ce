import Argon2Rust.NoWrap
import Argon2Rust.SaltBound
import Argon2Rust.HashVerify
import Argon2Rust.PoolOverflow
import Argon2Rust.Blake2Stream
import Argon2Rust.Zeroing
import Argon2Rust.PooledCapacity
import Argon2Rust.PooledAnswers
import Argon2Rust.Sse2
import Argon2Rust.Avx2
import Argon2Rust.Avx512
import Argon2Rust.Neon
import Argon2Rust.Wasm128
import Argon2Rust.Blake2Backends
import Argon2Rust.Base64X86
import Argon2Rust.Base64Neon
import Argon2Rust.Base64Wasm
import Argon2Rust.PhcGrammar
import Argon2Rust.Capacity
import Argon2Rust.PreimageEncoding
import Argon2Rust.EncodeString
import Argon2Rust.DecoderSafety
import Argon2Rust.ErrorPrecedence
import Argon2Rust.HashErrors
import Argon2Rust.WorkspaceCapacity
import Argon2Rust.Striping
import Argon2Rust.DecimalFields
import Argon2Rust.ArenaBacking
import Argon2Rust.Machines
import Argon2Rust.KeyedBlake2
import Argon2Rust.PoolOrdering
import Argon2Rust.ArenaWipe
import Argon2Rust.LifetimesRefinement
import Argon2Rust.Entropy
