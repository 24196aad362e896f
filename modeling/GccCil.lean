import GccCil.Scil.Decoding
import GccCil.Scil.TypeIdentity
import GccCil.Scil.Worklist
import GccCil.Libruntime.VTables
import GccCil.Cil.VTableDensity
import GccCil.Cil.EvaluationOrder
import GccCil.Cil.BranchLabels
import GccCil.Expmed.SignedDivision
import GccCil.Expmed.ConstantMultiplication
import GccCil.Gcc.SrealInvariant
import GccCil.Gcc.BitmapThree
import GccCil.Gcc.BitmapVisits
import GccCil.Gcc.SwitchTree
import GccCil.Gcc.AntiRange
import GccCil.Gcc.NearestDivision
import GccCil.Scil.CallArguments
import GccCil.Gcc.DivCompareSoundness
import GccCil.Gcc.SpecialIterations
import GccCil.Libcpp.IntegerLiterals
import GccCil.Libcpp.ConversionLoop
import GccCil.Libcpp.IncludeRuns
import GccCil.Libiberty.HashCounters
import GccCil.Libiberty.ResponseFiles
import GccCil.Libiberty.VersionOrder
import GccCil.Libiberty.SortPointers
import GccCil.Libiberty.Partition
import GccCil.Gcc.ChrecProducts
import GccCil.Gcc.ChrecEvaluation
import GccCil.Gcc.ModularInverse
import GccCil.Gcc.PointerSet
import GccCil.Gcc.SimpleBitmap
import GccCil.Libcpp.DependencyFiles
import GccCil.Gcc.LambdaHermite
import GccCil.Gcc.MultipleSubscripts
import GccCil.Gcc.SubscriptDependence
import GccCil.Gcc.UnaryRange
import GccCil.Gcc.AssertRange
import GccCil.Libcpp.ExpressionValues
import GccCil.Scil.MethodSimulation
