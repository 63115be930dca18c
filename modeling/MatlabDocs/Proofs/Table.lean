import MatlabDocs.Table

/-!
# Laws of tables

Looking up a key gives the value that was put in last, and a table keeps its keys in the
order in which they were first put in.
-/

namespace MatlabDocs.Table

variable {κ α : Type} [DecidableEq κ] {key : κ} {value : α} {entries : List (κ × α)}
  {table : Table κ α}

theorem insertEntry_of_not_mem (new : key ∉ entries.map Prod.fst) :
    insertEntry key value entries = entries ++ [(key, value)] := by
  induction entries with
  | nil => rfl
  | cons entry entries ih =>
    have different : entry.1 ≠ key := fun same => new (by simp [same])
    have later : key ∉ entries.map Prod.fst := fun member => new (by simp [member])
    rw [insertEntry, if_neg different, ih later, List.cons_append]

theorem mem_insertEntry {entry : κ × α} (nodup : (entries.map Prod.fst).Nodup)
    (member : entry ∈ insertEntry key value entries) :
    entry = (key, value) ∨ (entry ∈ entries ∧ entry.1 ≠ key) := by
  induction entries with
  | nil => exact .inl (by simpa [insertEntry] using member)
  | cons first entries ih =>
    rw [List.map_cons, List.nodup_cons] at nodup
    rw [insertEntry] at member
    split at member
    · rename_i same
      rcases List.mem_cons.mp member with isNew | later
      · exact .inl isNew
      · have different : entry.1 ≠ key := by
          rintro rfl
          exact nodup.1 (same ▸ List.mem_map_of_mem later)
        exact .inr ⟨List.mem_cons_of_mem _ later, different⟩
    · rename_i different
      rcases List.mem_cons.mp member with rfl | later
      · exact .inr ⟨List.mem_cons_self, different⟩
      · rcases ih nodup.2 later with isNew | ⟨old, other⟩
        · exact .inl isNew
        · exact .inr ⟨List.mem_cons_of_mem _ old, other⟩

theorem mem_keys_insertEntry {other : κ} :
    other ∈ (insertEntry key value entries).map Prod.fst ↔
      other = key ∨ other ∈ entries.map Prod.fst := by
  induction entries with
  | nil => simp [insertEntry]
  | cons first entries ih =>
    rw [insertEntry]
    split
    · rename_i same
      simp [same]
    · rw [List.map_cons, List.mem_cons, ih, List.map_cons, List.mem_cons, or_left_comm]

theorem nodup_insertEntry (nodup : (entries.map Prod.fst).Nodup) :
    ((insertEntry key value entries).map Prod.fst).Nodup := by
  induction entries with
  | nil => simp [insertEntry]
  | cons first entries ih =>
    rw [List.map_cons, List.nodup_cons] at nodup
    rw [insertEntry]
    split
    · rename_i same
      exact List.nodup_cons.mpr ⟨same ▸ nodup.1, nodup.2⟩
    · rename_i different
      refine List.nodup_cons.mpr ⟨?_, ih nodup.2⟩
      rw [mem_keys_insertEntry]
      rintro (same | old)
      · exact different same
      · exact nodup.1 old

theorem lookup_cons_eq (entry : κ × α) (entries : List (κ × α)) (key : κ) :
    (entry :: entries).lookup key =
      if key = entry.1 then some entry.2 else entries.lookup key := by
  rw [List.lookup_cons]
  cases same : key == entry.1 with
  | true => rw [if_pos (eq_of_beq same)]
  | false => rw [if_neg (by simpa using same)]

private theorem lookup_insertEntry (key other : κ) (value : α) (entries : List (κ × α)) :
    (insertEntry key value entries).lookup other =
      if other = key then some value else entries.lookup other := by
  induction entries with
  | nil => rw [insertEntry, lookup_cons_eq]
  | cons first entries ih =>
    rw [insertEntry]
    split
    · rename_i isKey
      rw [lookup_cons_eq, lookup_cons_eq, isKey]
      split <;> rfl
    · rename_i different
      rw [lookup_cons_eq, ih, lookup_cons_eq]
      split
      · rename_i isFirst
        rw [if_neg (isFirst ▸ different)]
      · rfl

@[simp] theorem get?_insert (table : Table κ α) (key other : κ) (value : α) :
    (table.insert key value).get? other = if other = key then some value else table.get? other :=
  lookup_insertEntry key other value table.entries

private theorem insertEntry_insertEntry (key : κ) (first second : α) (entries : List (κ × α)) :
    insertEntry key second (insertEntry key first entries) = insertEntry key second entries := by
  induction entries with
  | nil => simp [insertEntry]
  | cons entry entries ih =>
    rw [insertEntry]
    split
    · rename_i same
      simp [insertEntry, same]
    · rename_i different
      rw [insertEntry, if_neg different, ih, insertEntry, if_neg different]

theorem insert_insert (table : Table κ α) (key : κ) (first second : α) :
    (table.insert key first).insert key second = table.insert key second :=
  congrArg Table.mk (insertEntry_insertEntry key first second table.entries)

theorem mem_of_get? (found : table.get? key = some value) : (key, value) ∈ table.entries := by
  obtain ⟨before, after, split, _⟩ := List.lookup_eq_some_iff.mp found
  rw [split]
  simp

theorem get?_of_not_mem (new : key ∉ table.keys) : table.get? key = none := by
  refine List.lookup_eq_none_iff.mpr fun entry member => ?_
  have different : key ≠ entry.1 := fun same => new (same ▸ List.mem_map_of_mem member)
  simpa using different

theorem contains_iff : table.contains key ↔ key ∈ table.keys := by
  constructor
  · intro contained
    obtain ⟨value, found⟩ := Option.isSome_iff_exists.mp contained
    exact List.mem_map_of_mem (mem_of_get? found)
  · intro member
    obtain ⟨entry, isEntry, rfl⟩ := List.mem_map.mp member
    refine Option.isSome_iff_ne_none.mpr fun nothing => ?_
    exact absurd (List.lookup_eq_none_iff.mp nothing entry isEntry) (by simp)

/-- An entry that is kept is found as before, since it is still the first with its key. -/
theorem get?_filter {keep : κ → α → Bool} (found : table.get? key = some value)
    (kept : keep key value) : (table.filter keep).get? key = some value := by
  obtain ⟨before, after, split, others⟩ := List.lookup_eq_some_iff.mp found
  refine List.lookup_eq_some_iff.mpr ⟨before.filter fun entry => keep entry.1 entry.2,
    after.filter fun entry => keep entry.1 entry.2, ?_, ?_⟩
  · show table.entries.filter (fun entry => keep entry.1 entry.2) = _
    rw [split, List.filter_append, List.filter_cons_of_pos (by exact kept)]
  · intro entry member
    exact others entry (List.mem_filter.mp member).1

omit [DecidableEq κ] in
theorem nodup_keys_filter (nodup : table.keys.Nodup) (keep : κ → α → Bool) :
    (table.filter keep).keys.Nodup :=
  nodup.sublist (List.filter_sublist.map Prod.fst)

theorem insertAll_append (table : Table κ α) (first second : List (κ × α)) :
    table.insertAll (first ++ second) = (table.insertAll first).insertAll second :=
  List.foldl_append

private theorem insertAll_of_nodup (nodup : (table.keys ++ entries.map Prod.fst).Nodup) :
    (table.insertAll entries).entries = table.entries ++ entries := by
  induction entries generalizing table with
  | nil => simp [insertAll]
  | cons entry entries ih =>
    have new : entry.1 ∉ table.entries.map Prod.fst := by
      intro member
      have disjoint := (List.nodup_append.mp nodup).2.2
      exact disjoint _ member _ (by simp) rfl
    have inserted : (table.insert entry.1 entry.2).entries = table.entries ++ [entry] :=
      insertEntry_of_not_mem new
    have distinct : ((table.insert entry.1 entry.2).keys ++ entries.map Prod.fst).Nodup := by
      simpa [keys, inserted] using nodup
    have later := ih distinct
    rw [inserted] at later
    simpa [insertAll] using later

theorem entries_ofList (nodup : (entries.map Prod.fst).Nodup) :
    (ofList entries).entries = entries := by
  have all := @insertAll_of_nodup κ α _ entries {} (by simpa [keys] using nodup)
  simpa [ofList] using all

/-- A key is found among entries that are put in later, or else as before. -/
theorem get?_insertAll (table : Table κ α) (entries : List (κ × α)) (key : κ) :
    (table.insertAll entries).get? key = ((ofList entries).get? key).or (table.get? key) := by
  induction entries generalizing table with
  | nil => rfl
  | cons entry entries ih =>
    have first : (ofList (entry :: entries)).get? key =
        ((ofList entries).get? key).or ((insert {} entry.1 entry.2).get? key) :=
      ih (insert {} entry.1 entry.2)
    have later : (table.insertAll (entry :: entries)).get? key =
        ((ofList entries).get? key).or ((table.insert entry.1 entry.2).get? key) :=
      ih (table.insert entry.1 entry.2)
    rw [first, later, Option.or_assoc, get?_insert, get?_insert]
    congr 1
    by_cases same : key = entry.1
    · rw [if_pos same, if_pos same, Option.some_or]
    · rw [if_neg same, if_neg same]
      rfl

theorem get?_ofList_cons (entry : κ × α) (entries : List (κ × α)) (key : κ) :
    (ofList (entry :: entries)).get? key =
      ((ofList entries).get? key).or (if key = entry.1 then some entry.2 else none) := by
  have all := get?_insertAll (insert {} entry.1 entry.2) entries key
  rw [get?_insert] at all
  exact all

theorem get?_ofList_map (keys : List κ) (value : κ → α) (key : κ) :
    (ofList (keys.map fun key => (key, value key))).get? key =
      if key ∈ keys then some (value key) else none := by
  induction keys with
  | nil => rfl
  | cons first keys ih =>
    rw [List.map_cons, get?_ofList_cons, ih]
    by_cases isFirst : key = first
    · subst isFirst
      by_cases again : key ∈ keys <;> simp [again]
    · simp [isFirst]

theorem get?_filter_eq (nodup : table.keys.Nodup) (keep : κ → α → Bool) (key : κ) :
    (table.filter keep).get? key = (table.get? key).filter (keep key) := by
  obtain ⟨entries⟩ := table
  show (entries.filter fun entry => keep entry.1 entry.2).lookup key =
    (entries.lookup key).filter (keep key)
  induction entries with
  | nil => rfl
  | cons entry entries ih =>
    obtain ⟨new, others⟩ := List.nodup_cons.mp nodup
    have behind := ih others
    rw [List.filter_cons, lookup_cons_eq]
    by_cases same : key = entry.1
    · subst same
      have absent : entries.lookup entry.1 = none := @get?_of_not_mem _ _ _ _ ⟨entries⟩ new
      rw [absent] at behind
      by_cases kept : keep entry.1 entry.2
      · rw [if_pos kept, lookup_cons_eq, if_pos rfl, if_pos rfl]
        simp [Option.filter, kept]
      · rw [if_neg kept, if_pos rfl, behind]
        simp [Option.filter, kept]
    · rw [if_neg same]
      by_cases kept : keep entry.1 entry.2
      · rw [if_pos kept, lookup_cons_eq, if_neg same, behind]
      · rw [if_neg kept, behind]

theorem mem_of_get?_ofList (found : (ofList entries).get? key = some value) :
    (key, value) ∈ entries := by
  induction entries with
  | nil => cases found
  | cons entry entries ih =>
    rw [get?_ofList_cons] at found
    rcases Option.or_eq_some_iff.mp found with later | ⟨_, here⟩
    · exact List.mem_cons_of_mem _ (ih later)
    · by_cases same : key = entry.1
      · rw [if_pos same] at here
        have isFirst : (key, value) = entry := Prod.ext same (Option.some.inj here).symm
        exact isFirst ▸ List.mem_cons_self
      · rw [if_neg same] at here
        cases here

theorem nodup_keys_insertAll (nodup : table.keys.Nodup) (entries : List (κ × α)) :
    (table.insertAll entries).keys.Nodup := by
  induction entries generalizing table with
  | nil => exact nodup
  | cons entry entries ih =>
    exact @ih (table.insert entry.1 entry.2) (nodup_insertEntry nodup)

theorem get?_of_mem (nodup : table.keys.Nodup) (member : (key, value) ∈ table.entries) :
    table.get? key = some value := by
  obtain ⟨entries⟩ := table
  unfold get?
  induction entries with
  | nil => cases member
  | cons entry entries ih =>
    obtain ⟨new, others⟩ := List.nodup_cons.mp nodup
    rw [lookup_cons_eq]
    rcases List.mem_cons.mp member with isFirst | later
    · rw [← isFirst, if_pos rfl]
    · rw [if_neg, ih others later]
      intro isFirst
      exact new (List.mem_map.mpr ⟨(key, value), later, isFirst⟩)

theorem nodup_keys_ofList (entries : List (κ × α)) : (ofList entries).keys.Nodup :=
  @nodup_keys_insertAll κ α _ {} List.nodup_nil entries

theorem mem_of_mem_ofList {entry : κ × α} (member : entry ∈ (ofList entries).entries) :
    entry ∈ entries :=
  mem_of_get?_ofList (get?_of_mem (nodup_keys_ofList entries) member)

private theorem map_fst_insertEntry (key : κ) (value : α) (entries : List (κ × α)) :
    (insertEntry key value entries).map Prod.fst =
      if key ∈ entries.map Prod.fst then entries.map Prod.fst
      else entries.map Prod.fst ++ [key] := by
  induction entries with
  | nil => rfl
  | cons entry entries ih =>
    rw [insertEntry]
    split
    · rename_i same
      simp [same]
    · rename_i different
      have apart : ¬ key = entry.1 := fun same => different same.symm
      rw [List.map_cons, ih]
      by_cases member : key ∈ entries.map Prod.fst
      · rw [if_pos member, List.map_cons, if_pos (List.mem_cons_of_mem _ member)]
      · rw [if_neg member, List.map_cons, if_neg (by simpa [apart] using member), List.cons_append]

theorem keys_insert (table : Table κ α) (key : κ) (value : α) :
    (table.insert key value).keys =
      if key ∈ table.keys then table.keys else table.keys ++ [key] :=
  map_fst_insertEntry key value table.entries

omit [DecidableEq κ] in
theorem fst_map_pairs (keys : List κ) (value : κ → α) :
    (keys.map fun key => (key, value key)).map Prod.fst = keys := by
  rw [List.map_map]
  exact List.map_id keys

section

-- The laws below speak of lists of keys, whose test of equality need not be that of the table.
variable [BEq κ] [LawfulBEq κ]

/-- Keys that are new are added behind those that were there, each once. -/
private theorem keys_insertAll (table : Table κ α) (entries : List (κ × α)) :
    (table.insertAll entries).keys = table.keys ++
      ((entries.map Prod.fst).filter fun key => decide (key ∉ table.keys)).eraseDups := by
  induction entries generalizing table with
  | nil => simp [insertAll]
  | cons entry entries ih =>
    have later := ih (table.insert entry.1 entry.2)
    rw [insertAll, List.foldl_cons, ← insertAll, later, keys_insert]
    by_cases member : entry.1 ∈ table.keys
    · simp [member]
    · have others : (entries.map Prod.fst).filter
          (fun key => decide (key ∉ table.keys ++ [entry.1])) =
            ((entries.map Prod.fst).filter fun key => decide (key ∉ table.keys)).filter
              fun key => !key == entry.1 := by
        rw [List.filter_filter]
        congr 1
        funext key
        rw [Bool.eq_iff_iff]
        simp [and_comm]
      rw [if_neg member, others, List.map_cons, List.filter_cons_of_pos (by simpa using member),
        List.eraseDups_cons, List.append_assoc, List.singleton_append]

theorem keys_ofList (entries : List (κ × α)) :
    (ofList entries).keys = (entries.map Prod.fst).eraseDups := by
  have all := keys_insertAll ({} : Table κ α) entries
  have kept : (entries.map Prod.fst).filter (fun key => decide (key ∉ ({} : Table κ α).keys)) =
      entries.map Prod.fst := List.filter_eq_self.mpr fun _ _ => rfl
  rw [kept] at all
  exact all

theorem get?_ofList (entries : List (κ × α)) (key : κ) :
    (ofList entries).get? key = entries.reverse.lookup key := by
  induction entries with
  | nil => rfl
  | cons entry entries ih =>
    have alone : [entry].lookup key = if key = entry.1 then some entry.2 else none := by
      rw [List.lookup_cons]
      cases same : key == entry.1 with
      | true => rw [if_pos (eq_of_beq same)]
      | false =>
        rw [if_neg (by simpa using same)]
        rfl
    rw [get?_ofList_cons, ih, List.reverse_cons, List.lookup_append, alone]

theorem entries_insertAll_map (first second : List κ) (old new : κ → α) :
    ((ofList (first.map fun key => (key, old key))).insertAll
      (second.map fun key => (key, new key))).entries =
        (first ++ second).eraseDups.map fun key =>
          (key, if key ∈ second then new key else old key) := by
  generalize isTable : (ofList (first.map fun key => (key, old key))).insertAll
    (second.map fun key => (key, new key)) = table
  have keys : table.keys = (first ++ second).eraseDups := by
    rw [← isTable, ofList, ← insertAll_append, ← ofList, keys_ofList, List.map_append,
      fst_map_pairs,
      fst_map_pairs]
  rw [← keys, Table.keys, List.map_map]
  refine ((List.map_congr_left ?_).trans (List.map_id _)).symm
  rintro ⟨key, value⟩ member
  have found := get?_of_mem (isTable ▸ nodup_keys_insertAll (nodup_keys_ofList _) _) member
  rw [← isTable, get?_insertAll, get?_ofList_map, get?_ofList_map] at found
  refine Prod.ext rfl ?_
  show (if key ∈ second then new key else old key) = value
  by_cases isSecond : key ∈ second
  · rw [if_pos isSecond] at found ⊢
    exact Option.some.inj found
  · rw [if_neg isSecond, Option.none_or] at found
    rw [if_neg isSecond]
    split at found
    · exact Option.some.inj found
    · cases found

theorem nodup_eraseDups (keys : List κ) : keys.eraseDups.Nodup := by
  have nodup := nodup_keys_ofList (keys.map fun key => (key, ()))
  rwa [keys_ofList, fst_map_pairs] at nodup

end

end MatlabDocs.Table
