import ConvexContact.Error
import ConvexContact.Scalar

/-!
# Names in settings

**Number formats.**  A format has a long and a short name.  There are names for formats of whole
numbers, in which no scene can be computed, and names that are known but do not stand for a format.

**Devices.**  A device is named by its kind, possibly followed by a colon and a number without
leading zeros.  Scenes are computed on one kind only; there is a device without contents, and all
other kinds refuse tensors.
-/

namespace ConvexContact
namespace Names

/-- Names of the number formats. -/
def formats : List (String × Format) :=
  [("float64", .double), ("double", .double), ("float32", .single), ("float", .single)]

/-- Names of the formats of whole numbers. -/
def wholeFormats : List String :=
  ["int8", "int16", "short", "int32", "int", "int64", "long", "uint8", "uint16", "uint32",
    "uint64", "bool"]

/-- Names of other formats. -/
def otherFormats : List String :=
  ["float16", "half", "bfloat16", "complex32", "chalf", "complex64", "cfloat", "complex128",
    "cdouble", "qint8", "qint32", "quint8", "quint4x2", "quint2x4", "float8_e4m3fn",
    "float8_e5m2", "float8_e4m3fnuz", "float8_e5m2fnuz"]

/-- Names of constants and of kinds of objects. -/
def otherObjects : List String :=
  ["e", "pi", "inf", "nan", "newaxis", "strided", "sparse_coo", "contiguous_format", "Tensor",
    "FloatTensor", "DoubleTensor", "IntTensor", "LongTensor", "BoolTensor", "Generator", "Size",
    "device", "dtype", "layout", "memory_format", "finfo", "iinfo", "__name__", "__doc__",
    "__version__", "__file__", "__path__", "__all__", "__dict__", "__class__", "__package__",
    "__spec__", "__loader__", "__init__", "__repr__", "__str__", "__eq__", "__hash__", "__dir__",
    "__getattr__", "__getattribute__", "__setattr__", "__builtins__"]

/-- Names of groups of functions. -/
def otherGroups : List String :=
  ["nn", "optim", "cuda", "cpu", "mps", "xpu", "mtia", "autograd", "utils", "jit", "onnx",
    "distributed", "distributions", "fft", "linalg", "special", "sparse", "random", "hub",
    "multiprocessing", "quantization", "ao", "backends", "library", "overrides", "package",
    "profiler", "testing", "types", "version", "storage", "serialization", "functional", "func",
    "export", "fx", "masked", "nested", "signal", "compiler", "accelerator"]

/-- Names of functions. -/
def otherFunctions : List String :=
  ["tensor", "as_tensor", "zeros", "ones", "empty", "full", "eye", "arange",
    "linspace", "logspace", "zeros_like", "ones_like", "empty_like", "full_like", "rand", "randn",
    "randint", "randperm", "abs", "add", "sub", "mul", "div", "neg", "pow", "exp", "log", "sin",
    "cos", "tan", "asin", "acos", "atan", "atan2", "sinh", "cosh", "tanh", "sqrt", "rsqrt",
    "square", "sign", "floor", "ceil", "round", "trunc", "clamp", "where", "sum", "prod", "mean",
    "median", "std", "var", "max", "min", "maximum", "minimum", "argmax", "argmin", "sort",
    "argsort", "unique", "all", "any", "norm", "dot", "cross", "matmul", "mm", "mv", "bmm",
    "outer", "einsum", "cat", "stack", "split", "chunk", "reshape", "transpose", "flip", "diag",
    "block_diag", "trace", "inverse", "det", "cholesky", "cholesky_solve", "isnan", "isinf",
    "isfinite", "is_tensor", "save", "load", "compile", "manual_seed", "seed", "set_default_dtype",
    "get_default_dtype", "no_grad", "enable_grad", "set_num_threads", "get_num_threads", "typename"]

/-- What stands behind the name of a number format. -/
inductive NumberFormat
  | binary (f : Format)
  | wholeNumbers
  | other
  deriving DecidableEq, Repr

/-- The format of a name; a name that is not known is refused. -/
def format (name : String) : Except Error NumberFormat :=
  match formats.lookup name with
  | some f => .ok (.binary f)
  | none =>
      if wholeFormats.contains name then .ok .wholeNumbers
      else if [otherFormats, otherObjects, otherGroups, otherFunctions].any (·.contains name) then
        .ok .other
      else .error .missingAttribute

/-- The kind of the device on which scenes are computed. -/
def processor : String :=
  "cpu"

/-- The kind of the device whose tensors have no contents. -/
def emptyDevice : String :=
  "meta"

/-- Kinds of devices that would have to be set up first. -/
def missingDevices : List String :=
  ["cuda", "xpu", "mtia"]

/-- Kinds of devices. -/
def deviceKinds : List String :=
  [processor, emptyDevice] ++ missingDevices ++
    ["mps", "ipu", "mkldnn", "opengl", "opencl", "ideep", "hip", "ve", "fpga", "maia", "xla",
      "lazy", "vulkan", "hpu", "privateuseone"]

/-- Why a kind of devices takes no tensors. -/
def deviceRefusal (kind : String) : Error :=
  if missingDevices.contains kind then .deviceMissing
  else if kind = "mps" then .deviceUnusable
  else .deviceUnsupported

/-- The greatest number of a device. -/
def maxDeviceNumber : Nat :=
  2147483647

/-- Whether the text behind a colon is the number of a device. -/
def isDeviceNumber (digits : List Char) : Bool :=
  !digits.isEmpty && digits.all Char.isDigit && (digits.head? != some '0' || digits.length == 1) &&
    (String.ofList digits).toNat?.any (· ≤ maxDeviceNumber)

/-- The kind of the device of a name. -/
def deviceKind? (name : String) : Option String :=
  let cs := name.toList
  let kind := String.ofList (cs.takeWhile (· ≠ ':'))
  let numbered := match cs.dropWhile (· ≠ ':') with
    | [] => true
    | _ :: digits => isDeviceNumber digits
  if deviceKinds.contains kind && numbered then some kind else none

end Names
end ConvexContact
