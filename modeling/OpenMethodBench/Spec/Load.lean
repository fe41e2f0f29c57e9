import OpenMethodBench.Lib.Dict
import OpenMethodBench.Lib.Numeral

/-! `load` of `report.py`: the CSV files of a column, grouped by key over all passes. -/

namespace OMB

/-- How a script ends before its last line. -/
inductive Stop
  /-- `sys.exit(msg)` -/
  | exit (msg : Text)
  /-- an exception, by its name -/
  | raised (name : Text)
  deriving DecidableEq, Repr

/-- `(mode, hier, body, group, dispatch, arity)`. -/
structure Key where
  mode : Text
  hier : Text
  body : Text
  group : Text
  dispatch : Text
  arity : ℤ
  deriving DecidableEq, Repr

/-- A row of a file: the last column of a name counts. -/
abbrev Record := Dict Text Text

abbrev Table := Dict Key (List Record)

/-- The rows of a CSV text in which nothing is quoted; blank lines are passed over. -/
def csvRows (t : Text) : List (List Text) :=
  ((t.splitOn '\n').filter fun l => !l.isEmpty).map fun l => l.splitOn ','

/-- `csv.DictReader`. -/
def dictReader (t : Text) : List Record :=
  match csvRows t with
  | [] => []
  | header :: rows => rows.map fun row => (header.zip row).reverse

/-- `r[name]`. -/
def field (r : Record) (name : String) : Except Stop Text :=
  match r.get? name.toList with
  | some t => .ok t
  | none => .error (.raised "KeyError".toList)

/-- The key `load` files a row under. -/
def keyOf (r : Record) : Except Stop Key := do
  let mode ← field r "mode"
  let hier ← field r "hier"
  let body ← field r "body"
  let group ← field r "group"
  let dispatch ← field r "dispatch"
  let arity ← field r "arity"
  match Numeral.int? arity with
  | some n => return ⟨mode, hier, body, group, dispatch, n⟩
  | none => throw (.raised "ValueError".toList)

/-- The rows of one file, added to the table. -/
def addRecords (table : Table) (rs : List Record) : Except Stop Table :=
  rs.foldlM (fun table r => do return table.push (← keyOf r) r) table

def load (files : List Text) : Except Stop Table :=
  files.foldlM (fun table f => addRecords table (dictReader f)) []

/-! ## What a table holds -/

theorem addRecords_cons (table : Table) (r : Record) (rs : List Record) :
    addRecords table (r :: rs) = keyOf r >>= fun k => addRecords (table.push k r) rs := by
  rw [addRecords, List.foldlM_cons]
  rcases keyOf r with e | k <;> rfl

theorem addRecords_ok {table t : Table} {rs : List Record} (h : addRecords table rs = .ok t) :
    (table.Filled → t.Filled) ∧ (∀ r ∈ rs, ∃ k, keyOf r = .ok k) ∧
      ∀ k, t.entries k = table.entries k ++ rs.filter fun r => keyOf r = .ok k := by
  induction rs generalizing table with
  | nil =>
    obtain rfl : table = t := Except.ok.inj h
    exact ⟨id, by simp, by simp⟩
  | cons r rs ih =>
    rw [addRecords_cons] at h
    rcases hk : keyOf r with e | k
    · rw [hk] at h
      exact absurd h (by simp [bind, Except.bind])
    · rw [hk] at h
      obtain ⟨hfilled, hkeyed, hentries⟩ := ih h
      refine ⟨fun ht => hfilled (ht.push k r), ?_, fun k' => ?_⟩
      · intro x hx
        rcases List.mem_cons.mp hx with rfl | hx
        · exact ⟨k, hk⟩
        · exact hkeyed x hx
      · rw [hentries k', Dict.entries_push, List.filter_cons, hk, List.append_assoc]
        by_cases hkk : k = k' <;> simp [hkk]

theorem addRecords_exists {rs : List Record} (h : ∀ r ∈ rs, ∃ k, keyOf r = .ok k)
    (table : Table) : ∃ t, addRecords table rs = .ok t := by
  induction rs generalizing table with
  | nil => exact ⟨table, rfl⟩
  | cons r rs ih =>
    obtain ⟨k, hk⟩ := h r List.mem_cons_self
    rw [addRecords_cons, hk]
    exact ih (fun x hx => h x (List.mem_cons_of_mem r hx)) _

/-- The rows of all files, in order. -/
def records (files : List Text) : List Record := files.flatMap dictReader

theorem load_eq_addRecords (files : List Text) : load files = addRecords [] (records files) := by
  have hflat : ∀ table : Table, files.foldlM (fun table f => addRecords table (dictReader f)) table =
      addRecords table (records files) := by
    induction files with
    | nil => exact fun _ => rfl
    | cons f fs ih =>
      intro table
      have hsplit : addRecords table (records (f :: fs)) =
          addRecords table (dictReader f) >>= fun t => addRecords t (records fs) :=
        List.foldlM_append
      rw [List.foldlM_cons, hsplit]
      exact congrArg _ (funext ih)
  exact hflat []

/-- A table holds under each key the rows with that key, in the order of the files. -/
theorem load_entries {files : List Text} {t : Table} (h : load files = .ok t) (k : Key) :
    t.entries k = (records files).filter fun r => keyOf r = .ok k := by
  rw [load_eq_addRecords] at h
  rw [(addRecords_ok h).2.2 k]
  rfl

theorem load_filled {files : List Text} {t : Table} (h : load files = .ok t) : t.Filled := by
  rw [load_eq_addRecords] at h
  exact (addRecords_ok h).1 Dict.Filled.nil

theorem load_ok_iff (files : List Text) :
    (∃ t, load files = .ok t) ↔ ∀ r ∈ records files, ∃ k, keyOf r = .ok k := by
  rw [load_eq_addRecords]
  exact ⟨fun ⟨_, ht⟩ => (addRecords_ok ht).2.1, fun h => addRecords_exists h []⟩

end OMB
