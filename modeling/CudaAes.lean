import CudaAes.Lib.Run
import CudaAes.Lib.Buffer
import CudaAes.Lib.Counted
import CudaAes.Lib.Chunks
import CudaAes.Lib.StreamCipher
import CudaAes.Lib.Counter
import CudaAes.Lib.BinaryField
import CudaAes.Lib.Reversible
import CudaAes.Lib.Interleave
import CudaAes.Lib.Outcomes
import CudaAes.Lib.Resources
import CudaAes.Fips197.Field
import CudaAes.Fips197.Cipher
import CudaAes.Fips197.InvCipher
import CudaAes.Fips197.KeySchedule
import CudaAes.Core.Words
import CudaAes.Core.Tables
import CudaAes.Core.Aes
import CudaAes.Core.TablesSpec
import CudaAes.Core.AesSpec
import CudaAes.Core.Reversal
import CudaAes.Core.KnownAnswers
import CudaAes.Cpu.Scalar
import CudaAes.Cpu.KnownAnswers
import CudaAes.Cpu.Keystream
import CudaAes.Cpu.Intrinsics
import CudaAes.Cpu.Aesni
import CudaAes.Cpu.Vaes
import CudaAes.Cpu.Kernels
import CudaAes.Cpu.AesniSpec
import CudaAes.Cpu.VaesSpec
import CudaAes.Cpu.ParallelSpec
import CudaAes.Cpu.WideLoop
import CudaAes.Cpu.Streaming
import CudaAes.Cpu.Freshness
import CudaAes.Cpu.Panics
import CudaAes.Cpu.Accesses
import CudaAes.Cpu.Termination
import CudaAes.Cpu.Closures
import CudaAes.Cpu.Interleaving
import CudaAes.Gpu.Kernel
import CudaAes.Gpu.Host
import CudaAes.Gpu.KernelSpec
import CudaAes.Gpu.HostSpec
import CudaAes.Gpu.Streams
import CudaAes.Gpu.StreamsSpec
import CudaAes.Gpu.LateSteps
import CudaAes.Gpu.StreamRuns
import CudaAes.Gpu.KernelContract
import CudaAes.Gpu.Handle
import CudaAes.Gpu.HandleSpec
import CudaAes.Gpu.Session
import CudaAes.Conformance
import CudaAes.Bench.Variants
import CudaAes.Bench.Registry
import CudaAes.Bench.Gate
import CudaAes.Bench.Measurement
import CudaAes.Bench.Throughput
import CudaAes.Bench.Clients
