import LightArray.AnyArray
import LightArray.Arange
import LightArray.ArgsortDescending
import LightArray.ArrayHeap
import LightArray.AutoPatch
import LightArray.AxisHelpers
import LightArray.AxisInverse
import LightArray.AxisSlices
import LightArray.AxisTotals
import LightArray.AxisValidation
import LightArray.BinaryOp
import LightArray.Blocks
import LightArray.BoxTree
import LightArray.BroadcastOffsets
import LightArray.BroadcastShape
import LightArray.ChunkedSum
import LightArray.Coherence
import LightArray.Concatenate
import LightArray.Contents
import LightArray.Conversions
import LightArray.Delegation
import LightArray.Extremes
import LightArray.FallbackViews
import LightArray.FloatFunctions
import LightArray.FoldAxis
import LightArray.ForeignViews
import LightArray.Formula
import LightArray.KeepAliveRun
import LightArray.LaneSum
import LightArray.Lanes
import LightArray.ListKeys
import LightArray.LiveExports
import LightArray.LongAxes
import LightArray.MaskSelect
import LightArray.Masks
import LightArray.Mean
import LightArray.NdArray
import LightArray.NdimLimit
import LightArray.NestedAccept
import LightArray.NestedIndexing
import LightArray.NestedLists
import LightArray.Nonzero
import LightArray.OperatorOrder
import LightArray.OperatorResult
import LightArray.PatchFlags
import LightArray.PatchedContext
import LightArray.Ravel
import LightArray.Reductions
import LightArray.Rounding
import LightArray.ScatterGather
import LightArray.Select
import LightArray.SelectionAgreement
import LightArray.ShapeAssign
import LightArray.ShapeHelpers
import LightArray.ShapeRun
import LightArray.RawEntry
import LightArray.Signature
import LightArray.Sort
import LightArray.StableSort
import LightArray.Stacking
import LightArray.StrideBox
import LightArray.StridedCopy
import LightArray.TakeLeading
import LightArray.Transpose
import LightArray.ViewRun
import LightArray.WritableViews
import LightArray.ZipMap
