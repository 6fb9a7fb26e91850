import TargetUtils.Library.PartialMap
import TargetUtils.Library.Runs
import TargetUtils.Map.Basic

set_option autoImplicit false

/-! # The map against a partial map

What the map is for is said by a partial function from keys to pointers (`spec`). Every operation
but one finds a key by whether JudyL has an entry, as the partial function does. `bf_map_add` finds
it by whether the stored pointer is other than `NULL`: on a key that was added with `NULL` it
overwrites the entry and reports success. A run keeps to the partial function exactly when it never
adds a key that is present with `NULL`. -/

namespace BfMap

open PartialMap JudyL

/-! ## Calls and replies -/

/-- A call; `data` and `key` of the searches are what the caller's variables hold before. -/
inductive Call
  | init
  | add (key data : Word)
  | rmv (key : Word)
  | get (key data : Word)
  | getRmv (key data : Word)
  | getFirst (key data : Word)
  | getFirstRmv (key data : Word)
  | getNext (key data : Word)
  | count
  | destroy

/-- The status, and what the caller's variables hold after. -/
inductive Reply
  | status (sts : BfMapSts)
  | data (sts : BfMapSts) (data : Word)
  | entry (sts : BfMapSts) (key data : Word)
  | count (n : ℕ)
  | nothing
deriving DecidableEq

/-- The call on the map. -/
def Call.exec (map : JudyL) : Call → JudyL × Reply
  | .init => (BfMap.init.1, .status BfMap.init.2)
  | .add key data => ((BfMap.add map key data).1, .status (BfMap.add map key data).2)
  | .rmv key => ((BfMap.rmv map key).1, .status (BfMap.rmv map key).2)
  | .get key data => (map, .data (BfMap.get map key data).1 (BfMap.get map key data).2)
  | .getRmv key data =>
    let (map, sts, data) := BfMap.getRmv map key data
    (map, .data sts data)
  | .getFirst key data =>
    let (sts, key, data) := BfMap.getFirst map key data
    (map, .entry sts key data)
  | .getFirstRmv key data =>
    let (map, sts, key, data) := BfMap.getFirstRmv map key data
    (map, .entry sts key data)
  | .getNext key data =>
    let (sts, key, data) := BfMap.getNext map key data
    (map, .entry sts key data)
  | .count => (map, .count (BfMap.count map))
  | .destroy => (BfMap.destroy map, .nothing)

/-! ## The partial map -/

/-- The reply for the entry a search found. -/
def entryReply (key data : Word) : Option (Word × Word) → Reply
  | some (foundKey, value) => .entry .ok foundKey value
  | none => .entry .noKey key data

/-- What the call does to a partial map. -/
noncomputable def spec (m : PartialMap Word Word) : Call → PartialMap Word Word × Reply
  | .init => (PartialMap.empty, .status .ok)
  | .add key data =>
    match m key with
    | none => (Function.update m key (some data), .status .ok)
    | some _ => (m, .status .keyExists)
  | .rmv key =>
    match m key with
    | none => (m, .status .noKey)
    | some _ => (Function.update m key none, .status .ok)
  | .get key data =>
    match m key with
    | none => (m, .data .noKey data)
    | some value => (m, .data .ok value)
  | .getRmv key data =>
    match m key with
    | none => (m, .data .noKey data)
    | some value => (Function.update m key none, .data .ok value)
  | .getFirst key data => (m, entryReply key data (m.leastEntry Set.univ))
  | .getFirstRmv key data =>
    match m.leastEntry Set.univ with
    | none => (m, .entry .noKey key data)
    | some (foundKey, value) => (Function.update m foundKey none, .entry .ok foundKey value)
  | .getNext key data => (m, entryReply key data (m.leastEntry (Set.Ioi key)))
  | .count => (m, .count (m.card % 2 ^ 32))
  | .destroy => (PartialMap.empty, .nothing)

/-! ## What the functions do, by the entries they find -/

theorem rmv_of_absent {map : JudyL} {key : Word} (h : map.lookup key = none) :
    rmv map key = (map, .noKey) := by
  simp only [rmv, jld, h]
  rfl

theorem rmv_of_present {map : JudyL} {key value : Word} (h : map.lookup key = some value) :
    rmv map key = (map.erase key, .ok) := by
  simp only [rmv, jld, h]
  rfl

theorem add_of_absent {map : JudyL} {key : Word} (data : Word) (h : map.lookup key = none) :
    add map key data = ((map.insert key 0).insert key data, .ok) := by
  simp only [add, jli, h]
  rfl

theorem add_of_present {map : JudyL} {key value : Word} (data : Word)
    (h : map.lookup key = some value) (hvalue : value ≠ null) :
    add map key data = (map, .keyExists) := by
  simp only [add, jli, h]
  exact if_pos hvalue

/-- A key that is present with `NULL` is taken for an absent one. -/
theorem add_of_null {map : JudyL} {key : Word} (data : Word) (h : map.lookup key = some null) :
    add map key data = (map.insert key data, .ok) := by
  simp only [add, jli, h]
  rfl

theorem get_of_absent {map : JudyL} {key : Word} (data : Word) (h : map.lookup key = none) :
    get map key data = (.noKey, data) := by
  simp only [get, jlg, h]
  rfl

theorem get_of_present {map : JudyL} {key value : Word} (data : Word)
    (h : map.lookup key = some value) : get map key data = (.ok, value) := by
  simp only [get, jlg, h]
  rfl

/-- `getFirst` from 0 sees every key. -/
theorem first_zero (map : JudyL) : map.first 0 = leastEntry map.lookup Set.univ := by
  have hall : Set.Ici (0 : Word) = Set.univ := Set.eq_univ_of_forall fun k => Fin.zero_le k
  rw [OrderedMap.first_eq_leastEntry, hall]

theorem count_eq (map : JudyL) : count map = PartialMap.card map.lookup % 2 ^ 32 := by
  have hall : map.entries.countP (fun e => (0 : Word) ≤ e.1 ∧ e.1 ≤ -1) = map.entries.length := by
    refine List.countP_eq_length.2 fun e _ => decide_eq_true ⟨Fin.zero_le _, ?_⟩
    exact Fin.le_last e.1
  have hdvd : 2 ^ 32 ∣ 2 ^ 64 := pow_dvd_pow 2 (by decide)
  rw [count, jlc, hall, Nat.mod_mod_of_dvd _ hdvd, ← OrderedMap.card_eq_card_lookup,
    OrderedMap.card]

/-! ## One call -/

/-- An add on a key that is present with `NULL`. -/
def Call.AddsOverNull (map : JudyL) : Call → Prop
  | .add key _ => map.lookup key = some null
  | _ => False

theorem exec_add {map : JudyL} {key data : Word} (h : map.lookup key ≠ some null) :
    spec map.lookup (.add key data) =
      (((Call.add key data).exec map).1.lookup, ((Call.add key data).exec map).2) := by
  cases hkey : map.lookup key with
  | none =>
      simp only [spec, Call.exec, hkey, add_of_absent data hkey]
      rw [OrderedMap.lookup_insert_eq, OrderedMap.lookup_insert_eq, Function.update_idem]
  | some value =>
      have hvalue : value ≠ null := fun hzero => h (hkey.trans (congrArg some hzero))
      simp only [spec, Call.exec, hkey, add_of_present data hkey hvalue]

theorem exec_rmv (map : JudyL) (key : Word) :
    spec map.lookup (.rmv key) =
      (((Call.rmv key).exec map).1.lookup, ((Call.rmv key).exec map).2) := by
  cases hkey : map.lookup key with
  | none => simp only [spec, Call.exec, hkey, rmv_of_absent hkey]
  | some value =>
      simp only [spec, Call.exec, hkey, rmv_of_present hkey]
      rw [OrderedMap.lookup_erase_eq]

theorem exec_get (map : JudyL) (key data : Word) :
    spec map.lookup (.get key data) =
      (((Call.get key data).exec map).1.lookup, ((Call.get key data).exec map).2) := by
  cases hkey : map.lookup key with
  | none => simp only [spec, Call.exec, hkey, get_of_absent data hkey]
  | some value => simp only [spec, Call.exec, hkey, get_of_present data hkey]

theorem exec_getRmv (map : JudyL) (key data : Word) :
    spec map.lookup (.getRmv key data) =
      (((Call.getRmv key data).exec map).1.lookup, ((Call.getRmv key data).exec map).2) := by
  cases hkey : map.lookup key with
  | none =>
      have hget : getRmv map key data = (map, .noKey, data) := by
        simp only [getRmv, get_of_absent data hkey]
        rfl
      simp only [spec, Call.exec, hkey, hget]
  | some value =>
      have hget : getRmv map key data = (map.erase key, .ok, value) := by
        simp only [getRmv, get_of_present data hkey, rmv_of_present hkey]
        rfl
      simp only [spec, Call.exec, hkey, hget]
      rw [OrderedMap.lookup_erase_eq]

/-- What `entryOf` makes of a JudyL search is the reply for the entry it found. -/
theorem entryOf_found (key data index : Word) (e : Option (Word × Word)) :
    Reply.entry (entryOf key data (found index e)).1 (entryOf key data (found index e)).2.1
      (entryOf key data (found index e)).2.2 = entryReply key data e := by
  cases e with
  | none => rfl
  | some e => rfl

theorem exec_getFirst (map : JudyL) (key data : Word) :
    spec map.lookup (.getFirst key data) =
      (((Call.getFirst key data).exec map).1.lookup, ((Call.getFirst key data).exec map).2) := by
  have hfound := entryOf_found key data 0 (map.first 0)
  rw [first_zero] at hfound
  simp only [spec, Call.exec, getFirst, jlf, first_zero]
  rw [← hfound]

theorem exec_getNext (map : JudyL) (key data : Word) :
    spec map.lookup (.getNext key data) =
      (((Call.getNext key data).exec map).1.lookup, ((Call.getNext key data).exec map).2) := by
  have hfound := entryOf_found key data key (map.next key)
  rw [OrderedMap.next_eq_leastEntry] at hfound
  simp only [spec, Call.exec, getNext, jln, OrderedMap.next_eq_leastEntry]
  rw [← hfound]

theorem exec_getFirstRmv (map : JudyL) (key data : Word) :
    spec map.lookup (.getFirstRmv key data) =
      (((Call.getFirstRmv key data).exec map).1.lookup,
        ((Call.getFirstRmv key data).exec map).2) := by
  have hspec := first_zero map
  cases hfirst : map.first 0 with
  | none =>
      have hget : getFirstRmv map key data = (map, .noKey, key, data) := by
        simp only [getFirstRmv, getFirst, jlf, hfirst]
        rfl
      simp only [spec, Call.exec, hget, ← hspec, hfirst]
  | some e =>
      obtain ⟨foundKey, value⟩ := e
      have hkey : map.lookup foundKey = some value := (OrderedMap.first_eq_some.1 hfirst).1
      have hget : getFirstRmv map key data = (map.erase foundKey, .ok, foundKey, value) := by
        simp only [getFirstRmv, getFirst, jlf, hfirst, found, entryOf, rmv_of_present hkey]
        rfl
      simp only [spec, Call.exec, hget, ← hspec, hfirst]
      rw [OrderedMap.lookup_erase_eq]

/-- Every call but an add over `NULL` is what `spec` says. -/
theorem exec_eq_spec {map : JudyL} {c : Call} (h : ¬ c.AddsOverNull map) :
    spec map.lookup c = ((c.exec map).1.lookup, (c.exec map).2) := by
  cases c with
  | init => rfl
  | add key data => exact exec_add h
  | rmv key => exact exec_rmv map key
  | get key data => exact exec_get map key data
  | getRmv key data => exact exec_getRmv map key data
  | getFirst key data => exact exec_getFirst map key data
  | getFirstRmv key data => exact exec_getFirstRmv map key data
  | getNext key data => exact exec_getNext map key data
  | count => simp only [spec, Call.exec, count_eq]
  | destroy => rfl

/-- An add over `NULL` succeeds where the partial map has the key. -/
theorem reply_ne_of_addsOverNull {map : JudyL} {c : Call} (h : c.AddsOverNull map) :
    (spec map.lookup c).2 ≠ (c.exec map).2 := by
  cases c with
  | add key data =>
      have hkey : map.lookup key = some null := h
      simp only [spec, Call.exec, hkey, add_of_null data hkey]
      decide
  | _ => exact absurd h id

/-! ## Runs -/

/-- One call with its reply; `ok` restricts the calls. -/
def Step (ok : JudyL → Call → Prop) (map : JudyL) (e : Call × Reply) (map' : JudyL) : Prop :=
  ok map e.1 ∧ e.1.exec map = (map', e.2)

/-- One call with its reply, on the partial map. -/
def SpecStep (m : PartialMap Word Word) (e : Call × Reply) (m' : PartialMap Word Word) : Prop :=
  spec m e.1 = (m', e.2)

theorem Step.spec {map map' : JudyL} {e : Call × Reply}
    (h : Step (fun map c => ¬ c.AddsOverNull map) map e map') :
    SpecStep map.lookup e map'.lookup := by
  obtain ⟨hok, hexec⟩ := h
  rw [SpecStep, exec_eq_spec hok, hexec]

/-- A partial map that gives the same replies has the same entries, and no call of the run added
    over `NULL`. -/
theorem run_of_specRun {map : JudyL} {es : List (Call × Reply)} {m : PartialMap Word Word}
    (h : Run (Step fun _ _ => True) init.1 es map) (hspec : Run SpecStep PartialMap.empty es m) :
    m = map.lookup ∧ Run (Step fun map c => ¬ c.AddsOverNull map) init.1 es map := by
  induction h generalizing m with
  | nil => exact ⟨hspec.eq_of_nil, .nil⟩
  | @snoc es map map' e _ hlast ih =>
      obtain ⟨m', hm', hstep⟩ := hspec.last
      obtain ⟨rfl, hrun⟩ := ih hm'
      obtain ⟨-, hexec⟩ := hlast
      have hok : ¬ e.1.AddsOverNull map := by
        -- such an add succeeds, and the partial map has the key
        intro hover
        apply reply_ne_of_addsOverNull hover
        rw [hexec]
        exact congrArg Prod.snd hstep
      have hlast' := Step.spec ⟨hok, hexec⟩
      rw [SpecStep, hstep] at hlast'
      exact ⟨congrArg Prod.fst hlast', hrun.snoc ⟨hok, hexec⟩⟩

/-- A run on an initialised map is one of the partial map, with the same statuses, outputs and
    entries, exactly when no call of it adds over `NULL`. -/
theorem refinesPartialMap_iff {map : JudyL} {es : List (Call × Reply)}
    (h : Run (Step fun _ _ => True) init.1 es map) :
    Run SpecStep PartialMap.empty es map.lookup ↔
      Run (Step fun map c => ¬ c.AddsOverNull map) init.1 es map := by
  constructor
  · intro hspec
    exact (run_of_specRun h hspec).2
  · intro hrun
    induction hrun with
    | nil => exact .nil
    | snoc hinit hlast ih =>
        exact (ih (hinit.mono fun _ _ _ hs => ⟨trivial, hs.2⟩)).snoc hlast.spec

/-- Adding 5 with `NULL` and then adding 5 again: both succeed. -/
theorem run_addTwice :
    Run (Step fun _ _ => True) init.1
      ([] ++ [(.add 5 0, .status .ok)] ++ [(.add 5 7, .status .ok)])
      ((OrderedMap.empty.insert 5 0).insert 5 7) := by
  have hfirst : Step (fun _ _ => True) init.1 (.add 5 0, .status .ok)
      (OrderedMap.empty.insert 5 0) := ⟨trivial, by decide⟩
  have hsecond : Step (fun _ _ => True) (OrderedMap.empty.insert 5 0) (.add 5 7, .status .ok)
      ((OrderedMap.empty.insert 5 0).insert 5 7) := ⟨trivial, by decide⟩
  exact (Run.nil.snoc hfirst).snoc hsecond

theorem refinesPartialMap_iff_addTwice :
    Run SpecStep PartialMap.empty
        ([] ++ [(.add 5 0, .status .ok)] ++ [(.add 5 7, .status .ok)])
        ((OrderedMap.empty.insert 5 0).insert 5 7 : JudyL).lookup ↔
      Run (Step fun map c => ¬ c.AddsOverNull map) init.1
        ([] ++ [(.add 5 0, .status .ok)] ++ [(.add 5 7, .status .ok)])
        ((OrderedMap.empty.insert 5 0).insert 5 7) :=
  refinesPartialMap_iff run_addTwice

/-- No partial map replies as the map does to the two adds. -/
theorem not_refinesPartialMap :
    ∃ es map, Run (Step fun _ _ => True) init.1 es map ∧
      ¬ ∃ m, Run SpecStep PartialMap.empty es m := by
  refine ⟨_, _, run_addTwice, ?_⟩
  rintro ⟨m, hm⟩
  obtain ⟨m₁, h₁, hsecond⟩ := hm.last
  obtain ⟨m₀, h₀, hfirst⟩ := h₁.last
  rw [h₀.eq_of_nil] at hfirst
  have hupdate : Function.update PartialMap.empty 5 (some 0) = m₁ := congrArg Prod.fst hfirst
  have hm₁ : m₁ 5 = some 0 := by rw [← hupdate, Function.update_self]
  have hreply : (spec m₁ (.add 5 7)).2 = .status .ok := congrArg Prod.snd hsecond
  simp only [spec, hm₁] at hreply
  cases hreply

end BfMap
