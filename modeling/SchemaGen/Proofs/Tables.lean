import Mathlib.Data.List.Induction
import SchemaGen.Table

/-!
# Operations on whole tables

What is under a key after all keys of another table were set, after values
were replaced, or after keys were left out. The order of distinct keys makes
no difference to what is under them (`get?_eq_of_perm`), and it is all that
look-ups do not tell of a table (`eq_of_get?`).
-/

namespace SchemaGen

namespace Table

variable {α β : Type}

/-! ## Look-ups -/

/-- What is under a distinct key is the entry with this key. -/
theorem get?_eq_some_iff {t : Table α} (h : (keys t).Nodup) {key : String} {value : α} :
    get? t key = some value ↔ (key, value) ∈ t :=
  ⟨mem_of_get?, get?_of_mem h⟩

theorem get?_eq_of_perm {t u : Table α} (h : (keys t).Nodup) (hperm : t.Perm u) (key : String) :
    get? t key = get? u key := by
  have hkeys : (keys u).Nodup := (hperm.map Prod.fst).nodup_iff.mp h
  ext value
  rw [get?_eq_some_iff h, get?_eq_some_iff hkeys, hperm.mem_iff]

theorem eq_of_get? {t u : Table α} (h : (keys t).Nodup) (hkeys : keys t = keys u)
    (hget : ∀ key ∈ keys t, get? t key = get? u key) : t = u := by
  induction t generalizing u with
  | nil =>
      cases u with
      | nil => rfl
      | cons e u => cases hkeys
  | cons e t ih =>
      cases u with
      | nil => cases hkeys
      | cons e' u =>
          obtain ⟨key, value⟩ := e
          obtain ⟨key', value'⟩ := e'
          obtain ⟨rfl, hrest⟩ := List.cons.inj hkeys
          obtain ⟨hfresh, hnodup⟩ := List.nodup_cons.mp h
          have hvalue := hget key (List.mem_cons_self ..)
          rw [get?, get?, if_pos rfl, if_pos rfl] at hvalue
          obtain rfl := Option.some.inj hvalue
          rw [ih hnodup hrest fun other hother => ?_]
          have hne : key ≠ other := fun heq => hfresh (heq ▸ hother)
          have hsame := hget other (List.mem_cons_of_mem _ hother)
          rwa [get?, get?, if_neg hne, if_neg hne] at hsame

theorem get?_filter {t : Table α} {key : String} (p : String → Bool) (h : p key = true) :
    get? (t.filter fun e => p e.1) key = get? t key := by
  induction t with
  | nil => rfl
  | cons e t ih =>
      rw [List.filter_cons]
      by_cases he : p e.1 = true
      · rw [if_pos he, get?, get?, ih]
      · have hne : e.1 ≠ key := fun heq => he (heq ▸ h)
        rw [if_neg he, ih, get?, if_neg hne]

theorem nodup_keys_filter {t : Table α} (h : (keys t).Nodup) (p : String × α → Bool) :
    (keys (t.filter p)).Nodup :=
  h.sublist (List.filter_sublist.map Prod.fst)

/-! ## Replacing values -/

/-- A table with its values replaced, key by key. -/
def mapValues (f : String → α → β) (t : Table α) : Table β := t.map fun e => (e.1, f e.1 e.2)

@[simp] theorem mapValues_cons (f : String → α → β) (e : String × α) (t : Table α) :
    mapValues f (e :: t) = (e.1, f e.1 e.2) :: mapValues f t := rfl

@[simp] theorem keys_mapValues (f : String → α → β) (t : Table α) :
    keys (mapValues f t) = keys t := by
  simp [keys, mapValues, Function.comp_def]

theorem mapValues_congr {f g : String → α → β} {t : Table α}
    (h : ∀ e ∈ t, f e.1 e.2 = g e.1 e.2) : mapValues f t = mapValues g t :=
  List.map_congr_left fun e he => congrArg (Prod.mk e.1) (h e he)

theorem get?_mapValues (f : String → α → β) (t : Table α) (key : String) :
    get? (mapValues f t) key = (get? t key).map (f key) := by
  induction t with
  | nil => rfl
  | cons e t ih =>
      rw [mapValues_cons, get?, get?]
      split
      · rename_i hkey
        rw [hkey, Option.map_some]
      · exact ih

theorem contains_mapValues (f : String → α → β) (t : Table α) (key : String) :
    contains (mapValues f t) key = contains t key := by
  rw [contains, contains, get?_mapValues, Option.isSome_map]

theorem mapValues_set (f : α → β) (t : Table α) (key : String) (value : α) :
    mapValues (fun _ => f) (set t key value) = set (mapValues (fun _ => f) t) key (f value) := by
  induction t with
  | nil => rfl
  | cons e t ih =>
      rw [mapValues_cons, set, set]
      split
      · rfl
      · rw [← ih]
        rfl

/-- Setting a key in two tables that agree entry by entry. -/
theorem forall₂_set {R : String → α → β → Prop} {t : Table α} {u : Table β}
    (h : List.Forall₂ (fun e e' => e.1 = e'.1 ∧ R e.1 e.2 e'.2) t u) {key : String} {a : α} {b : β}
    (hvalue : R key a b) :
    List.Forall₂ (fun e e' => e.1 = e'.1 ∧ R e.1 e.2 e'.2) (set t key a) (set u key b) := by
  induction h with
  | nil => exact .cons ⟨rfl, hvalue⟩ .nil
  | cons hfirst hrest ih =>
      rw [set, set, ← hfirst.1]
      split
      · rename_i hkey
        exact .cons ⟨rfl, hkey ▸ hvalue⟩ hrest
      · exact .cons ⟨rfl, hfirst.2⟩ ih

/-! ## Setting many keys -/

/-- Sets the keys of a second table in a first one, in order. -/
def setAll (t new : Table α) : Table α := new.foldl (fun t e => set t e.1 e.2) t

theorem setAll_cons (t : Table α) (e : String × α) (new : Table α) :
    setAll t (e :: new) = setAll (set t e.1 e.2) new := rfl

theorem setAll_append (t front back : Table α) :
    setAll t (front ++ back) = setAll (setAll t front) back :=
  List.foldl_append

theorem setAll_of_nodup {t new : Table α} (h : (keys (t ++ new)).Nodup) :
    setAll t new = t ++ new := by
  induction new generalizing t with
  | nil => exact (List.append_nil t).symm
  | cons e new ih =>
      have hfresh : e.1 ∉ keys t := by
        intro hmem
        rw [keys_append, keys_cons] at h
        exact (List.nodup_append.mp h).2.2 _ hmem _ (List.mem_cons_self ..) rfl
      have hnext : (t ++ [e]) ++ new = t ++ e :: new := List.append_cons .. |>.symm
      rw [← hnext] at h ⊢
      rw [← ih h, setAll_cons, set_of_not_mem hfresh]

/-- A key stands where it is set first. -/
theorem keys_setAll_nil (new : Table α) : keys (setAll [] new) = (keys new).eraseDups := by
  induction new using List.reverseRecOn with
  | nil => rfl
  | append_singleton new e ih =>
      have hlast : setAll [] (new ++ [e]) = set (setAll [] new) e.1 e.2 := setAll_append ..
      rw [hlast, keys_set, ih, keys_append, List.eraseDups_append]
      by_cases hmem : e.1 ∈ keys new
      · simp [List.removeAll, hmem]
      · simp [List.removeAll, hmem, List.eraseDups_cons]

/-- Distinct keys that are set afterwards go before what was there. -/
theorem get?_setAll {new : Table α} (h : (keys new).Nodup) (t : Table α) (key : String) :
    get? (setAll t new) key = (get? new key).or (get? t key) := by
  induction new generalizing t with
  | nil => rfl
  | cons e new ih =>
      obtain ⟨hfresh, hrest⟩ := List.nodup_cons.mp h
      rw [setAll_cons, ih hrest, get?_set, get?]
      split
      · rename_i hkey
        rw [get?_eq_none.mpr (hkey ▸ hfresh), Option.none_or, Option.some_or]
      · rfl

theorem get?_setAll_of_not_mem {new : Table α} {key : String} (h : key ∉ keys new)
    (t : Table α) : get? (setAll t new) key = get? t key := by
  induction new generalizing t with
  | nil => rfl
  | cons e new ih =>
      obtain ⟨hother, hrest⟩ := not_or.mp (List.mem_cons.not.mp h)
      rw [setAll_cons, ih hrest, get?_set, if_neg (Ne.symm hother)]

end Table

end SchemaGen
