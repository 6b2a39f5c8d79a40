import TimeLake.Rows.Flush

/-!
`LastValueCache` of `crates/lastvalue`: the latest reading of each hot series
of the tables that opted in. The LRU map is the list of its entries, most
recently used first; `active` is the lock-free copy of "some table is
enabled".
-/

namespace TimeLake.Ingest

open TimeLake.Rows

structure LastValue where
  tags : List (String × String)
  timestampNs : Int
  fields : List (String × FieldValue)
  deriving DecidableEq

structure LastValueCache where
  cap : Nat
  enabled : List String
  entries : List (String × LastValue)
  deriving DecidableEq

/-- `db\0table`. -/
def tt (db table : String) : String := db ++ "\x00" ++ table

def keyPrefix (db table : String) : String := db ++ "\x00" ++ table ++ "\x00"

/-- `db\0table\0k1=v1\0k2=v2…`. -/
def seriesKey (db table : String) (sortedTags : List (String × String)) : String :=
  keyPrefix db table ++ String.intercalate "\x00" (sortedTags.map fun p => p.1 ++ "=" ++ p.2)

/-- `Vec<(String, String)>::sort`. -/
def sortTags (tags : List (String × String)) : List (String × String) :=
  tags.insertionSort fun a b => a.1 < b.1 ∨ (a.1 = b.1 ∧ a.2 ≤ b.2)

namespace LastValueCache

def new (cap : Nat) : LastValueCache := ⟨max cap 1, [], []⟩

def isActive (c : LastValueCache) : Bool := !c.enabled.isEmpty

def enable (c : LastValueCache) (db table : String) : LastValueCache :=
  { c with enabled := if c.enabled.contains (tt db table) then c.enabled
                      else c.enabled ++ [tt db table] }

def disable (c : LastValueCache) (db table : String) : LastValueCache :=
  { c with
    enabled := c.enabled.filter (· ≠ tt db table)
    entries := c.entries.filter fun e => !(keyPrefix db table).toList.isPrefixOf e.1.toList }

/-- `observe`: only a strictly newer reading replaces the one that is there;
the series becomes the most recently used either way. -/
def observe (c : LastValueCache) (db table : String) (tags : List (String × String))
    (timestampNs : Int) (fields : List (String × FieldValue)) : LastValueCache :=
  if c.enabled.contains (tt db table) then
    let sorted := sortTags tags
    let key := seriesKey db table sorted
    match c.entries.lookup key with
    | some e =>
        let e := if e.timestampNs < timestampNs then
          { e with timestampNs := timestampNs, fields := fields } else e
        { c with entries := (key, e) :: c.entries.filter fun p => p.1 ≠ key }
    | none =>
        { c with entries := ((key, ⟨sorted, timestampNs, fields⟩) :: c.entries).take c.cap }
  else c

/-- The cached rows of one table. -/
def snapshot (c : LastValueCache) (db table : String) : List LastValue :=
  (c.entries.filter fun e => (keyPrefix db table).toList.isPrefixOf e.1.toList).map Prod.snd

theorem snapshot_eq_nil {c : LastValueCache} {db table : String} :
    c.snapshot db table = [] ↔
      ∀ e ∈ c.entries, (keyPrefix db table).toList.isPrefixOf e.1.toList = false := by
  simp only [snapshot, List.map_eq_nil_iff, List.filter_eq_nil_iff, Bool.not_eq_true]

end LastValueCache

end TimeLake.Ingest
