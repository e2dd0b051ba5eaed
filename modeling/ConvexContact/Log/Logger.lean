import ConvexContact.Log.Table

/-!
# Loggers

A logger collects values under keys and writes them as a table on request; besides, it writes
sentences whose level is high enough.

**State.**  Three tables by key: the value, the number of means taken since the last table, and
the exclusion.  Writing a table clears them.

**Means.**  The mean of a key starts from zero when the key is new.  A mean that is refused leaves
the key with its value and a count behind.
-/

namespace ConvexContact

/-- Where a logger writes. -/
inductive Sink
  | console
  | file (path : String)
  | memory (number : Nat)
  deriving DecidableEq, Repr

/-- Texts written and warnings given by an operation. -/
structure Emission where
  texts : List (Sink × String)
  warnings : List String

/-- A logger. -/
structure Logger (α : Type) where
  folder : Option String
  level : Document
  maxLength : Int
  sinks : List Sink
  values : List (String × LogValue α)
  counts : List (String × Nat)
  exclusions : List (String × Exclusion)

namespace Logger

variable {α : Type}

/-- The level of ordinary sentences. -/
def infoLevel : Int := 20

/-- The level of sentences for the search of mistakes. -/
def debugLevel : Int := 10

def warnLevel : Int := 30

def errorLevel : Int := 40

/-- The level of a logger that writes no tables. -/
def disabledLevel : Int := 50

/-- The greatest length of a text in a table, unless another one is given. -/
def standardLength : Int := 36

/-- A logger without values. -/
def new (folder : Option String) (sinks : List Sink) (maxLength : Int) : Logger α :=
  ⟨folder, .whole infoLevel, maxLength, sinks, [], [], []⟩

/-- Sets the entry of a key. -/
def put {β : Type} (key : String) (x : β) (table : List (String × β)) : List (String × β) :=
  (key, x) :: table.filter (·.1 ≠ key)

/-- Sets the value of a key. -/
def record (l : Logger α) (key : String) (value : LogValue α) (exclusion : Exclusion) : Logger α :=
  { l with
    values := put key value l.values
    exclusions := put key exclusion l.exclusions }

section Means

variable [Scalar α] [Quotients α]

/-- The mean of a value that counts `count` times and another one. -/
def mean (old : LogValue α) (count : Nat) (value : LogValue α) : Except Error (LogValue α) := do
  let first ← old.share count (count + 1)
  let second ← value.share 1 (count + 1)
  first.add second

/-- Takes a value into the mean of a key; an absent value makes the mean absent. -/
def recordMean (l : Logger α) (key : String) (value : LogValue α) (exclusion : Exclusion) :
    Logger α × Option Error :=
  if value.isAbsent then ({ l with values := put key value l.values }, none)
  else
    let old := (l.values.lookup key).getD (.number 0)
    let count := (l.counts.lookup key).getD 0
    match mean old count value with
    | .ok x =>
        ({ l with
            values := put key x l.values
            counts := put key (count + 1) l.counts
            exclusions := put key exclusion l.exclusions }, none)
    | .error e =>
        ({ l with values := put key old l.values, counts := put key count l.counts }, some e)

end Means

/-- The logger without values. -/
def clear (l : Logger α) : Logger α :=
  { l with values := [], counts := [], exclusions := [] }

/-- Whether the logger writes no tables. -/
def isDisabled (l : Logger α) : Bool :=
  match l.level with
  | .fraction x => x == Float.ofInt disabledLevel
  | level => level.whole? == some disabledLevel

/-- Writes the table of all values to every sink and clears them. -/
def dump [Shown α] (l : Logger α) : Except Error (Logger α × Emission) :=
  if l.isDisabled then .ok (l, ⟨[], []⟩)
  else if l.sinks.isEmpty then .ok (l.clear, ⟨[], []⟩)
  else (Table.write l.maxLength l.values l.exclusions).map fun
    | some text => (l.clear, ⟨l.sinks.map (·, text), []⟩)
    | none => (l.clear, ⟨[], l.sinks.map fun _ => "Tried to write empty key-value dict"⟩)

/-- Whether a sentence of a level is written. -/
def admits (l : Logger α) (level : Document) : Except Error Bool :=
  l.level.atMost level

/-- Writes a sentence to every sink, if its level is high enough. -/
def sayAt [Shown α] (l : Logger α) (level : Document) (words : List (LogValue α)) :
    Except Error Emission :=
  (l.admits level).map fun admitted =>
    if admitted then
      let text := String.intercalate " " (words.map LogValue.word) ++ "\n"
      ⟨l.sinks.map (·, text), []⟩
    else ⟨[], []⟩

/-- Writes a sentence of one of the usual levels. -/
def say [Shown α] (l : Logger α) (level : Int) (words : List (LogValue α)) :
    Except Error Emission :=
  l.sayAt (.whole level) words

/-- The keys of the three tables in ascending order. -/
def keys (l : Logger α) : List String × List String × List String :=
  ((Table.sorted l.values).map (·.1), (Table.sorted l.counts).map (·.1),
    (Table.sorted l.exclusions).map (·.1))

/-- The calls that record values and write tables. -/
inductive Call (α : Type)
  | record (key : String) (value : LogValue α) (exclusion : Exclusion)
  | recordMean (key : String) (value : LogValue α) (exclusion : Exclusion)
  | setLevel (level : Document)
  | dump

variable [Scalar α] [Quotients α] [Shown α]

/-- Performs a call: what it writes, unless it is refused, and the logger after it. -/
def perform (l : Logger α) : Call α → Except Error Emission × Logger α
  | .record key value exclusion => (.ok ⟨[], []⟩, l.record key value exclusion)
  | .recordMean key value exclusion =>
      match l.recordMean key value exclusion with
      | (l, none) => (.ok ⟨[], []⟩, l)
      | (l, some e) => (.error e, l)
  | .setLevel level => (.ok ⟨[], []⟩, { l with level := level })
  | .dump =>
      match l.dump with
      | .ok (l, e) => (.ok e, l)
      | .error e => (.error e, l)

/-- The logger after a sequence of calls, some of which may be refused. -/
def after (l : Logger α) : List (Call α) → Logger α
  | [] => l
  | call :: calls => after (l.perform call).2 calls

end Logger

end ConvexContact
