/-!
# Tables

Text keys with values in the order in which the keys were first set. Setting a present key changes
its value and keeps its place; `keys_set` and `get?_set` describe the whole effect.
-/

namespace SchemaGen

/-- Keys and their values, in the order of first setting. -/
abbrev Table (α : Type) := List (String × α)

namespace Table

variable {α : Type}

/-- The value under a key. -/
def get? : Table α → String → Option α
  | [], _ => none
  | (k, v) :: rest, key => if k = key then some v else get? rest key

/-- Sets a key: in place where it is present, at the end where it is new. -/
def set : Table α → String → α → Table α
  | [], key, value => [(key, value)]
  | (k, v) :: rest, key, value =>
    if k = key then (k, value) :: rest else (k, v) :: set rest key value

/-- The keys, in order. -/
def keys (t : Table α) : List String := t.map Prod.fst

/-- Whether a key is present. -/
def contains (t : Table α) (key : String) : Bool := (get? t key).isSome

@[simp] theorem keys_nil : keys ([] : Table α) = [] := rfl

@[simp] theorem keys_cons (e : String × α) (t : Table α) : keys (e :: t) = e.1 :: keys t := rfl

@[simp] theorem keys_append (s t : Table α) : keys (s ++ t) = keys s ++ keys t := by
  simp [keys]

theorem get?_isSome {t : Table α} {key : String} : (get? t key).isSome ↔ key ∈ keys t := by
  induction t with
  | nil => simp [get?]
  | cons e t ih =>
    by_cases h : e.1 = key
    · simp [get?, h]
    · simp [get?, h, ih, Ne.symm h]

theorem get?_eq_none {t : Table α} {key : String} : get? t key = none ↔ key ∉ keys t := by
  rw [← get?_isSome]
  cases get? t key <;> simp

@[simp] theorem contains_iff {t : Table α} {key : String} : contains t key ↔ key ∈ keys t :=
  get?_isSome

theorem keys_set (t : Table α) (key : String) (value : α) :
    keys (set t key value) = if key ∈ keys t then keys t else keys t ++ [key] := by
  induction t with
  | nil => simp [set]
  | cons e t ih =>
    by_cases h : e.1 = key
    · simp [set, h]
    · by_cases hk : key ∈ keys t <;> simp [set, h, ih, hk, Ne.symm h]

theorem get?_set (t : Table α) (key other : String) (value : α) :
    get? (set t key value) other = if key = other then some value else get? t other := by
  induction t with
  | nil => simp [set, get?]
  | cons e t ih =>
    by_cases h : e.1 = key
    · subst h
      by_cases ho : e.1 = other <;> simp [set, get?, ho]
    · by_cases ho : key = other
      · subst ho
        simp [set, get?, h, ih]
      · by_cases he : e.1 = other
        · subst he
          simp [set, get?, ho, h]
        · simp [set, get?, h, ih, ho, he]

theorem nodup_keys_set {t : Table α} (h : (keys t).Nodup) (key : String) (value : α) :
    (keys (set t key value)).Nodup := by
  rw [keys_set]
  split
  · exact h
  · rename_i hk
    exact List.nodup_append.2 ⟨h, by simp, by
      intro a ha b hb
      rw [List.mem_singleton.1 hb]
      exact fun hab => hk (hab ▸ ha)⟩

theorem set_of_not_mem {t : Table α} {key : String} (h : key ∉ keys t) (value : α) :
    set t key value = t ++ [(key, value)] := by
  induction t with
  | nil => rfl
  | cons e t ih =>
    simp only [keys_cons, List.mem_cons, not_or] at h
    simp [set, Ne.symm h.1, ih h.2]

theorem set_append_of_not_mem {s t : Table α} {key : String} (h : key ∉ keys s) (value : α) :
    set (s ++ t) key value = s ++ set t key value := by
  induction s with
  | nil => rfl
  | cons e s ih =>
    simp only [keys_cons, List.mem_cons, not_or] at h
    rw [List.cons_append, set, if_neg (Ne.symm h.1), ih h.2, List.cons_append]

theorem get?_of_mem {t : Table α} (h : (keys t).Nodup) {key : String} {value : α}
    (hm : (key, value) ∈ t) : get? t key = some value := by
  induction t with
  | nil => simp at hm
  | cons e t ih =>
    rw [keys_cons, List.nodup_cons] at h
    rcases List.mem_cons.1 hm with rfl | hm
    · simp [get?]
    · have : e.1 ≠ key := fun he => h.1 (he ▸ List.mem_map_of_mem hm)
      simp [get?, this, ih h.2 hm]

theorem mem_of_get? {t : Table α} {key : String} {value : α} (h : get? t key = some value) :
    (key, value) ∈ t := by
  induction t with
  | nil => simp [get?] at h
  | cons e t ih =>
    by_cases he : e.1 = key
    · subst he
      simp [get?] at h
      simp [← h]
    · simp [get?, he] at h
      exact List.mem_cons_of_mem _ (ih h)

theorem get?_append_of_not_mem {s t : Table α} {key : String} (h : key ∉ keys s) :
    get? (s ++ t) key = get? t key := by
  induction s with
  | nil => rfl
  | cons e s ih =>
    simp only [keys_cons, List.mem_cons, not_or] at h
    rw [List.cons_append, get?, if_neg (Ne.symm h.1), ih h.2]

theorem get?_append_left {s t : Table α} {key : String} (h : key ∉ keys t) :
    get? (s ++ t) key = get? s key := by
  induction s with
  | nil => exact get?_eq_none.2 h
  | cons e s ih => rw [List.cons_append, get?, get?, ih]

theorem get?_map_self (f : String → α) {names : List String} {key : String} (h : key ∈ names) :
    get? (names.map fun name => (name, f name)) key = some (f key) := by
  induction names with
  | nil => simp at h
  | cons name names ih =>
    rw [List.map_cons, get?]
    split
    · rename_i he
      rw [he]
    · rename_i he
      exact ih ((List.mem_cons.1 h).resolve_left (Ne.symm he))

end Table

end SchemaGen
