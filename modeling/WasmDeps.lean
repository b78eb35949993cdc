import WasmDeps.Pooling.SlabLayout
import WasmDeps.Gc.DrcRuns
import WasmDeps.Gc.CopyingRuns
import WasmDeps.Component.ResourceRuns
import WasmDeps.Types.Canonical
import WasmDeps.Codegen.DomTreeCorrect
import WasmDeps.Frontend.SwitchCorrect
import WasmDeps.Entity.EntityLists
import WasmDeps.Machinst.PendingConstants
import WasmDeps.Machinst.TextLink
import WasmDeps.Component.CanonicalAbiBuilds
import WasmDeps.Gc.OwnedRoots
import WasmDeps.Gc.ScopedRoots
import WasmDeps.Component.ResourceTableRuns
import WasmDeps.Memcheck.WmemcheckRuns
import WasmDeps.Pooling.IndexAllocatorPolicy
import WasmDeps.Codegen.AliasAnalysis
import WasmDeps.Gc.StructLayout
import WasmDeps.Pooling.MemoryIsolation
import WasmDeps.Pooling.PageMap
import WasmDeps.Bforest.MapAtomic
import WasmDeps.Bitset.CompoundBitSet
import WasmDeps.Store.Fuel
import WasmDeps.WasiHttp.FieldMap
import WasmDeps.Wasi.FileInputStream
