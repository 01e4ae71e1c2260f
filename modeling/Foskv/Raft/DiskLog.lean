import Foskv.Generic.Run
import Foskv.Raft.RaftLog
import Foskv.Rpc.Proto3

/-! The log on disk: what the store holds of it, how a run of entries overwrites it, and whether
the log in memory is what a restart would read. -/
namespace Foskv.Raft
open Generic

/-- The entries carry the indexes from `start` on. -/
def IndexedFrom (start : ℕ) (entries : List LogEntry) : Prop :=
  ∀ k e, entries[k]? = some e → e.index = start + k

namespace IndexedFrom
variable {start : ℕ} {es es' : List LogEntry} {e : LogEntry}

theorem nil : IndexedFrom start [] := by simp [IndexedFrom]

theorem append_iff : IndexedFrom start (es ++ es') ↔
    IndexedFrom start es ∧ IndexedFrom (start + es.length) es' := by
  constructor
  · refine fun h => ⟨fun k e he => h k e ?_,fun k e he => ?_⟩
    · rw [List.getElem?_append_left (List.getElem?_eq_some_iff.mp he).1, he]
    · have := h (es.length + k) e (by rw [List.getElem?_append_right (by omega)]; simpa using he)
      omega
  · rintro ⟨h,h'⟩ k e he
    by_cases hk : k < es.length
    · exact h k e (List.getElem?_append_left hk ▸ he)
    · rw [List.getElem?_append_right (by omega)] at he
      have := h' _ e he
      omega

theorem single_iff : IndexedFrom start [e] ↔ e.index = start := by
  constructor
  · exact fun h => h 0 e rfl
  · rintro rfl k e' he
    cases k with
    | zero => exact congrArg LogEntry.index (Option.some.inj he).symm
    | succ k => simp at he

theorem take (h : IndexedFrom start es) (k : ℕ) : IndexedFrom start (es.take k) := by
  rw [← List.take_append_drop k es, append_iff] at h
  exact h.1

theorem drop (h : IndexedFrom start es) (k : ℕ) : IndexedFrom (start + k) (es.drop k) := by
  intro i e he
  rw [List.getElem?_drop] at he
  have := h _ e he
  omega

/-- Entries that continue a log of positions stand at their own indexes. -/
theorem getElem?_append (h : IndexedFrom (es.length + 1) es') (he : e ∈ es') :
    0 < e.index ∧ (es ++ es')[e.index - 1]? = some e := by
  obtain ⟨k,hk⟩ := List.mem_iff_getElem?.mp he
  have hindex := h k e hk
  refine ⟨by omega,?_⟩
  rw [List.getElem?_append_right (by omega), ← hk]
  congr 1
  omega

theorem iff_map : IndexedFrom start es ↔ es.map LogEntry.index = List.range' start es.length := by
  constructor
  · refine fun h => List.ext_getElem (by simp) fun k hk _ => ?_
    rw [List.length_map] at hk
    rw [List.getElem_map, List.getElem_range']
    have := h k _ (List.getElem?_eq_getElem hk)
    omega
  · intro h k e he
    obtain ⟨hk,rfl⟩ := List.getElem?_eq_some_iff.mp he
    have hget := congrArg (fun l => l[k]?) h
    simp only [List.getElem?_map, he, Option.map_some, List.getElem?_range' hk] at hget
    have := Option.some.inj hget
    omega

theorem getLast {last : LogEntry} (h : IndexedFrom start es) (hlast : es.getLast? = some last) :
    last.index + 1 = start + es.length := by
  rw [List.getLast?_eq_getElem?] at hlast
  have hlt := (List.getElem?_eq_some_iff.mp hlast).1
  have := h _ _ hlast
  omega

/-- Entries carry one run of indexes only. -/
theorem start_eq {start' : ℕ} (h : IndexedFrom start es) (h' : IndexedFrom start' es)
    (hne : es ≠ []) : start = start' := by
  obtain ⟨e,es,rfl⟩ := List.exists_cons_of_ne_nil hne
  have hleft := h 0 e rfl
  have hright := h' 0 e rfl
  omega

end IndexedFrom


instance (start : ℕ) (entries : List LogEntry) : Decidable (IndexedFrom start entries) :=
  decidable_of_iff _ IndexedFrom.iff_map.symm

namespace Persister
variable [Protobuf]

/-- The store holds the entries of `log` under the keys from `first` on, and its two markers say
so. -/
structure Stores (p : Persister) (first : ℕ) (log : List LogEntry) : Prop where
  pos : 0 < first
  firstIndex : (p.st.get firstIndexKey).bind stoull = some first
  lastIndex : (p.st.get lastIndexKey).bind stoull =
    some (if log = [] then 0 else first + log.length - 1)
  entry : ∀ k e, log[k]? = some e → (p.st.get (toString (first + k))).bind Wire.parse = some e

section Recovery
variable {p p' : Persister} {first : ℕ} {log : List LogEntry}

theorem parseEntries_eq_ok {values : List (Option Bytes)} {es : List LogEntry} :
    parseEntries values = .ok es ↔ values.map (·.bind Wire.parse) = es.map some := by
  induction values generalizing es with
  | nil =>
    cases es <;> simp [parseEntries]
  | cons value values ih =>
    cases value with
    | none => cases es <;> simp [parseEntries]
    | some value =>
      cases hparse : (Wire.parse value : Option LogEntry) with
      | none => cases es <;> simp [parseEntries, hparse]
      | some entry =>
        cases es with
        | nil => cases h : parseEntries values <;> simp [parseEntries, hparse, h, Except.map]
        | cons e es =>
          simp only [parseEntries, hparse, List.map_cons, Option.bind_some, List.cons.injEq,
            Option.some.injEq, ← ih]
          cases h : parseEntries values <;> simp [Except.map]

theorem all_isSome_of_parse {values : List (Option Bytes)} {es : List LogEntry}
    (h : values.map (·.bind Wire.parse) = es.map some) : values.all Option.isSome := by
  refine List.all_eq_true.mpr fun v hv => ?_
  have hmem : v.bind Wire.parse ∈ es.map some := h ▸ List.mem_map_of_mem hv
  obtain ⟨e,-,he⟩ := List.mem_map.mp hmem
  cases v with
  | none => cases he
  | some value => rfl

theorem get_parse_iff {n : ℕ} : (p.st.multiGet ((List.range' first n).map toString)).map
      (·.bind Wire.parse) = log.map some ↔ n = log.length ∧
        ∀ k e, log[k]? = some e → (p.st.get (toString (first + k))).bind Wire.parse = some e := by
  have hget : ∀ k, k < n → ((p.st.multiGet ((List.range' first n).map toString)).map
      (·.bind Wire.parse))[k]? =
        some ((p.st.get (toString (first + k))).bind (Wire.parse (α := LogEntry))) := by
    intro k hk
    simp [Storage.multiGet, List.getElem?_range' hk]
  constructor
  · intro h
    have hlen : n = log.length := by simpa [Storage.multiGet] using congrArg List.length h
    refine ⟨hlen,fun k e he => ?_⟩
    have hk : k < n := hlen ▸ (List.getElem?_eq_some_iff.mp he).1
    have heq := hget k hk
    rw [h, List.getElem?_map, he, Option.map_some] at heq
    exact (Option.some.inj heq).symm
  · rintro ⟨rfl,h⟩
    refine List.ext_getElem? fun k => ?_
    by_cases hk : k < log.length
    · have he := List.getElem?_eq_getElem hk
      rw [hget k hk, List.getElem?_map, he, h k _ he, Option.map_some]
    · rw [List.getElem?_eq_none (by simpa [Storage.multiGet] using hk),
        List.getElem?_eq_none (by simpa using hk)]

theorem stores_iff : p.Stores first log ↔
    0 < first ∧ (p.st.get firstIndexKey).bind stoull = some first ∧
      (p.st.get lastIndexKey).bind stoull =
        some (if log = [] then 0 else first + log.length - 1) ∧
      (p.st.multiGet ((List.range' first log.length).map toString)).map (·.bind Wire.parse) =
        log.map some := by
  rw [get_parse_iff, and_iff_right rfl]
  exact ⟨fun h => ⟨h.pos,h.firstIndex,h.lastIndex,h.entry⟩,
    fun h => ⟨h.1,h.2.1,h.2.2.1,h.2.2.2⟩⟩

instance : Decidable (p.Stores first log) := decidable_of_iff _ stores_iff.symm

/-- What the store holds is what a restart reads. Only an empty log gets its marker rewritten. -/
theorem Stores.recoverEntries (h : p.Stores first log) :
    ∃ p', p.recoverEntries true = .ok (p',log) ∧
      p'.Stores (if log = [] then 1 else first) log ∧
      ∀ key, key ≠ firstIndexKey → p'.st.get key = p.st.get key := by
  obtain ⟨v,hv,hfirst⟩ := Option.bind_eq_some_iff.mp h.firstIndex
  obtain ⟨w,hw,hlast⟩ := Option.bind_eq_some_iff.mp h.lastIndex
  have hpos := h.pos
  unfold Persister.recoverEntries
  rw [hv, hw]
  simp only [hfirst, hlast]
  by_cases hlog : log = []
  · subst hlog
    refine ⟨⟨p.st.put firstIndexKey (toString 1)⟩,?_,?_,fun key hkey => ?_⟩
    · simp only [if_true, if_neg (by omega : ¬(first = 0 ∨ (0 ≠ 0 ∧ 0 < first)))]
    · refine ⟨Nat.one_pos,?_,?_,by simp⟩
      · simp only [Storage.get_put_self, if_true]
        decide
      · rw [Storage.get_put_of_ne _ _ (by decide), hw]
        simpa using hlast
    · exact Storage.get_put_of_ne _ _ hkey
  · have hlen : 0 < log.length := List.length_pos_iff.mpr hlog
    simp only [if_neg hlog] at hlast ⊢
    have hvalues := get_parse_iff (n := first + log.length - 1 - first + 1).mpr
      ⟨by omega,h.entry⟩
    refine ⟨p,?_,h,fun _ _ => rfl⟩
    rw [if_neg (by omega), if_neg (by omega), parseEntries_eq_ok.mpr hvalues, if_pos]
    · rfl
    · exact all_isSome_of_parse hvalues

/-- A restart that succeeds leaves a store that holds what it read. -/
theorem stores_of_recoverEntries (h : p.recoverEntries true = .ok (p',log)) :
    ∃ first, p'.Stores first log ∧ (log = [] → first = 1) ∧ (log ≠ [] → p' = p) ∧
      ∀ w, p.st.get lastIndexKey = some w → p'.st.get lastIndexKey = some w := by
  unfold Persister.recoverEntries at h
  split at h
  · rename_i _ hw
    cases h
    refine ⟨1,⟨Nat.one_pos,?_,?_,by simp⟩,fun _ => rfl,fun h => absurd rfl h,fun w h => ?_⟩
    · change (((p.st.put firstIndexKey _).put lastIndexKey _).get firstIndexKey).bind stoull = _
      rw [Storage.get_put_of_ne _ _ (by decide), Storage.get_put_self]
      decide
    · change (((p.st.put firstIndexKey _).put lastIndexKey _).get lastIndexKey).bind stoull = _
      rw [Storage.get_put_self]
      decide
    · rw [hw] at h
      cases h
  · rename_i v w hv hw
    split at h
    · rename_i first last hfirst hlast
      by_cases hrange : first = 0 ∨ last ≠ 0 ∧ last < first
      · rw [if_pos hrange] at h
        cases h
      rw [if_neg hrange] at h
      by_cases hzero : last = 0
      · rw [if_pos hzero, if_pos rfl] at h
        cases h
        subst hzero
        refine ⟨1,⟨Nat.one_pos,?_,?_,by simp⟩,fun _ => rfl,fun h => absurd rfl h,fun w h => ?_⟩
        · simp only [Storage.get_put_self]
          decide
        · simp only [if_true]
          rw [Storage.get_put_of_ne _ _ (by decide), hw]
          exact hlast
        · exact (Storage.get_put_of_ne _ _ (by decide)).trans h
      · rw [if_neg hzero] at h
        dsimp only at h
        split_ifs at h
        cases hparse : parseEntries (p.st.multiGet
          ((List.range' first (last - first + 1)).map toString)) with
        | error e =>
          rw [hparse] at h
          cases h
        | ok es =>
          rw [hparse] at h
          cases h
          obtain ⟨hlen,hentry⟩ := get_parse_iff.mp (parseEntries_eq_ok.mp hparse)
          have hne : log ≠ [] := List.length_pos_iff.mp (by omega)
          refine ⟨first,⟨by omega,?_,?_,hentry⟩,fun h => absurd h hne,fun _ => rfl,
            fun _ h => h⟩
          · rw [hv]
            exact hfirst
          · rw [hw, if_neg hne]
            exact hlast.trans (congrArg some (by omega))
    · cases h
  · cases h

end Recovery

section Writing
variable {p : Persister} {first s : ℕ} {log es : List LogEntry}

/-- The writes of a batch of entries. -/
def putEntries (es : List LogEntry) : List Storage.WriteOp :=
  es.map fun entry => .put (toString entry.index) (Wire.serialize entry)

theorem get_putEntries_of_ne (st : Storage) {key : Bytes}
    (h : ∀ e ∈ es, key ≠ toString e.index) :
    (st.batchWrite (putEntries es)).get key = st.get key := by
  refine Storage.get_batchWrite_of_forall_ne st _ fun op hop => ?_
  obtain ⟨e,he,rfl⟩ := List.mem_map.mp hop
  exact h e he

theorem get_putEntries (st : Storage) (hes : IndexedFrom s es) {k : ℕ} {e : LogEntry}
    (he : es[k]? = some e) :
    (st.batchWrite (putEntries es)).get (toString (s + k)) = some (Wire.serialize e) := by
  induction es using List.reverseRecOn with
  | nil => simp at he
  | append_singleton es e' ih =>
    obtain ⟨hes,hlast⟩ := IndexedFrom.append_iff.mp hes
    rw [IndexedFrom.single_iff] at hlast
    have hsplit : st.batchWrite (putEntries (es ++ [e'])) =
        (st.batchWrite (putEntries es)).put (toString e'.index) (Wire.serialize e') := by
      rw [putEntries, List.map_append, List.map_singleton, Storage.batchWrite_concat]
      rfl
    rw [hsplit]
    by_cases hk : k < es.length
    · rw [List.getElem?_append_left hk] at he
      rw [Storage.get_put_of_ne _ _ fun h => ?_]
      · exact ih hes he
      · have := toString_injective h
        omega
    · have hlen := (List.getElem?_eq_some_iff.mp he).1
      rw [List.length_append, List.length_singleton] at hlen
      obtain rfl : k = es.length := by omega
      rw [List.getElem?_concat_length] at he
      rw [← Option.some.inj he, hlast, Storage.get_put_self]

/-- A batch touches no key with a letter except the marker of the last index. -/
theorem get_persistBatch (st : Storage) (last : Bytes) {key : Bytes} {c : UInt8} (hc : c ∈ key)
    (hletter : 57 < c) (hkey : key ≠ lastIndexKey) :
    (st.batchWrite (putEntries es ++ [.put lastIndexKey last])).get key = st.get key := by
  refine Storage.get_batchWrite_of_forall_ne st _ fun op hop => ?_
  obtain hop | hop := List.mem_append.mp hop
  · obtain ⟨e,-,rfl⟩ := List.mem_map.mp hop
    exact ne_toString hc hletter
  · obtain rfl := List.mem_singleton.mp hop
    exact hkey

theorem persistBatch_eq {last : LogEntry} (hlast : es.getLast? = some last) :
    p.persistBatch true es = .ok ⟨p.st.batchWrite
      (putEntries es ++ [.put lastIndexKey (toString last.index)])⟩ := by
  rw [Persister.persistBatch, hlast]
  rfl

/-- A run of entries cuts the stored log where it starts and takes the place of the rest. -/
theorem Stores.persistBatch (h : p.Stores first log) (hne : es ≠ []) (hes : IndexedFrom s es)
    (hfirst : first ≤ s) (hs : s ≤ first + log.length) (hsize : s + es.length ≤ UInt64.size) :
    ∃ p', p.persistBatch true es = .ok p' ∧ p'.Stores first (log.take (s - first) ++ es) ∧
      p'.st.get firstIndexKey = p.st.get firstIndexKey ∧
      p'.st.get persistStateKey = p.st.get persistStateKey := by
  obtain ⟨last,hlast⟩ := Option.ne_none_iff_exists'.mp (mt List.getLast?_eq_none_iff.mp hne)
  have hindex := hes.getLast hlast
  have hlen := List.length_pos_iff.mpr hne
  have hfirst' : (p.st.batchWrite (putEntries es ++
      [.put lastIndexKey (toString last.index)])).get firstIndexKey = p.st.get firstIndexKey :=
    get_persistBatch p.st _ (c := 116) (by decide) (by decide) (by decide)
  refine ⟨⟨p.st.batchWrite (putEntries es ++ [.put lastIndexKey (toString last.index)])⟩,?_,
    ⟨h.pos,?_,?_,?_⟩,hfirst',?_⟩
  · exact persistBatch_eq hlast
  · rw [hfirst']
    exact h.firstIndex
  · rw [Storage.batchWrite_concat, Storage.WriteOp.run, Storage.get_put_self, Option.bind_some,
      stoull_toString (by omega), if_neg (by simp [hne]), List.length_append, List.length_take]
    exact congrArg some (by omega)
  · intro k e he
    have hkept : (log.take (s - first)).length = s - first := by
      rw [List.length_take]
      omega
    rw [Storage.batchWrite_concat, Storage.WriteOp.run, Storage.get_put_of_ne _ _
      (ne_toString (c := 108) (by decide) (by decide)).symm]
    by_cases hk : k < s - first
    · rw [List.getElem?_append_left (by omega), List.getElem?_take_of_lt hk] at he
      rw [get_putEntries_of_ne p.st fun e' he' heq => ?_]
      · exact h.entry k e he
      · obtain ⟨j,hj⟩ := List.mem_iff_getElem?.mp he'
        have := hes j e' hj
        have := toString_injective heq
        omega
    · rw [List.getElem?_append_right (by omega), hkept] at he
      have hkey : first + k = s + (k - (s - first)) := by omega
      rw [hkey, get_putEntries p.st hes he, Option.bind_some, Wire.parse_serialize]
  · exact get_persistBatch p.st _ (c := 115) (by decide) (by decide) (by decide)

omit [Protobuf] in
/-- The loop of a cut deletes keys of log indexes only. -/
theorem truncateKeys_key {count i : ℕ} {keys : List Bytes} {wb : List Storage.WriteOp}
    (hkeys : ∀ key ∈ keys, ∃ j, key = toString j) (h : truncateKeys count i keys = some wb) :
    ∀ op ∈ wb, ∃ j, op.key = toString j := by
  induction count generalizing i keys wb with
  | zero =>
    cases h
    simp
  | succ count ih =>
    have hkeys' : ∀ key ∈ keys ++ [toString i], ∃ j, key = toString j := by
      intro key hkey
      obtain hkey | hkey := List.mem_append.mp hkey
      · exact hkeys key hkey
      · exact ⟨i,List.mem_singleton.mp hkey⟩
    simp only [truncateKeys, Option.bind_eq_bind, Option.bind_eq_some_iff] at h
    obtain ⟨key,hkey,wb',hwb,h⟩ := h
    cases h
    intro op hop
    obtain rfl | hop := List.mem_cons.mp hop
    · exact hkeys' key (List.mem_of_getElem? hkey)
    · exact ih hkeys' hwb op hop

omit [Protobuf] in
/-- A cut leaves every key with a letter alone. -/
theorem get_truncateBatch {p' : Persister} {accepted : Bool} {startIndex endIndex : ℕ}
    {key : Bytes} {c : UInt8} (hc : c ∈ key) (hletter : 57 < c)
    (h : p.truncateBatch accepted startIndex endIndex = some (.ok p')) :
    p'.st.get key = p.st.get key := by
  obtain ⟨wb,hwb,h⟩ := Option.bind_eq_some_iff.mp h
  split_ifs at h
  · cases h
    refine Storage.get_batchWrite_of_forall_ne p.st wb fun op hop => ?_
    obtain ⟨j,hj⟩ := truncateKeys_key (by simp) hwb op hop
    exact hj ▸ ne_toString hc hletter
  · cases h

theorem recoverState_congr {q : Persister}
    (h : q.st.get persistStateKey = p.st.get persistStateKey) :
    q.recoverState = p.recoverState := by
  unfold recoverState
  rw [h]

end Writing
end Persister

/-- A call of the persister; `recoverEntries` is the one a restart makes. -/
inductive PersisterCall
  | persistEntry (entry : LogEntry)
  | persistBatch (entries : List LogEntry)
  | persistState (currentTerm : ℕ) (votedFor : Option MemberId)
  | recoverEntries

namespace PersisterCall

/-- The run of entries a call writes. -/
def entries : PersisterCall → List LogEntry
  | .persistEntry entry => [entry]
  | .persistBatch entries => entries
  | .persistState _ _ | .recoverEntries => []

/-- The vote record a call writes. -/
def state : PersisterCall → Option PersistState
  | .persistState currentTerm votedFor => some ⟨currentTerm,votedFor⟩
  | _ => none

/-- The run is consecutive and starts within the stored log or right behind it; indexes are
64-bit numbers. -/
def Valid [Protobuf] (p : Persister) (call : PersisterCall) : Prop :=
  ∀ e ∈ call.entries.head?, (IndexedFrom e.index call.entries ∧
    ∀ e' ∈ call.entries, e'.index < UInt64.size) ∧ 1 ≤ e.index ∧
      ∃ last ∈ (p.st.get lastIndexKey).bind stoull, e.index ≤ last + 1

instance [Protobuf] (p : Persister) (call : PersisterCall) : Decidable (call.Valid p) :=
  inferInstanceAs (Decidable (∀ e ∈ call.entries.head?, (_ ∧ ∀ e' ∈ call.entries, _ < _) ∧
    _ ≤ _ ∧ ∃ last ∈ Option.bind _ _, _ ≤ _))

variable [Protobuf]

def result (p : Persister) : PersisterCall → Option (Result Persister)
  | .persistEntry entry => p.persistEntry true entry
  | .persistBatch entries => some (p.persistBatch true entries)
  | .persistState currentTerm votedFor => some (p.persistState true currentTerm votedFor)
  | .recoverEntries => some ((p.recoverEntries true).map Prod.fst)

/-- A refused call leaves the store as it is; an entry that does not fit the buffer is not
serialised at all. -/
def step (p : Persister) (call : PersisterCall) : Option Persister := do
  match ← call.result p with
  | .ok p' => return p'
  | .error _ => return p

end PersisterCall

/-- The reference model of a write: a run starting at `s` keeps the first `s - 1` entries and
follows them. -/
def overwrite (log run : List LogEntry) : List LogEntry :=
  match run.head? with
  | none => log
  | some e => log.take (e.index - 1) ++ run

/-- What a sequence of calls should leave of the log. -/
def referenceLog (calls : List PersisterCall) : List LogEntry :=
  calls.foldl (fun log call => overwrite log call.entries) []

/-- What a sequence of calls should leave of the vote record. -/
def referenceState (initial : Result PersistState) (calls : List PersisterCall) :
    Result PersistState :=
  calls.foldl (fun state call => call.state.elim state .ok) initial

namespace Persister

section Reference
variable [Protobuf] {p p₀ q q' : Persister} {log : List LogEntry} {call : PersisterCall}

/-- Writing a run of the reference model. -/
theorem Stores.step_write (h : p.Stores 1 log) (hlog : IndexedFrom 1 log)
    (hvalid : call.Valid p) (hne : call.entries ≠ [])
    (hresult : ∀ r ∈ call.result p, r = p.persistBatch true call.entries)
    (hstep : call.step p = some q) :
    q.Stores 1 (overwrite log call.entries) ∧ IndexedFrom 1 (overwrite log call.entries) ∧
      q.recoverState = p.recoverState := by
  obtain ⟨e,es,hes⟩ := List.exists_cons_of_ne_nil hne
  obtain ⟨⟨hindexed,hsize⟩,hpos,last,hlast,hle⟩ := hvalid e (by rw [hes]; rfl)
  have hend : e.index ≤ 1 + log.length := by
    rw [Option.mem_def, h.lastIndex, Option.some.injEq] at hlast
    split_ifs at hlast with hnil
    · omega
    · omega
  have hfit : e.index + call.entries.length ≤ UInt64.size := by
    have hmem := List.getLast_mem hne
    have hindex := hindexed.getLast (List.getLast?_eq_getLast_of_ne_nil hne)
    have := hsize _ hmem
    omega
  obtain ⟨p',hp',hstores,-,hstate⟩ := h.persistBatch hne hindexed hpos hend hfit
  obtain ⟨r,hr,hstep⟩ := Option.bind_eq_some_iff.mp hstep
  rw [hresult r hr, hp'] at hstep
  obtain rfl := Option.some.inj hstep
  have hover : overwrite log call.entries = log.take (e.index - 1) ++ call.entries := by
    rw [hes]
    rfl
  rw [hover]
  refine ⟨hstores,IndexedFrom.append_iff.mpr ⟨hlog.take _,?_⟩,recoverState_congr hstate⟩
  have hkept : 1 + (log.take (e.index - 1)).length = e.index := by
    rw [List.length_take]
    omega
  rw [hkept]
  exact hindexed

/-- The vote record lies beside the log. -/
theorem Stores.putState {first : ℕ} (h : p.Stores first log) (value : Bytes) :
    Stores ⟨p.st.put persistStateKey value⟩ first log where
  pos := h.pos
  firstIndex := by
    rw [Storage.get_put_of_ne _ _ (by decide)]
    exact h.firstIndex
  lastIndex := by
    rw [Storage.get_put_of_ne _ _ (by decide)]
    exact h.lastIndex
  entry k e he := by
    rw [Storage.get_put_of_ne _ _ (ne_toString (c := 112) (by decide) (by decide)).symm]
    exact h.entry k e he

theorem Stores.step (h : p.Stores 1 log) (hlog : IndexedFrom 1 log) (hvalid : call.Valid p)
    (hstep : call.step p = some q) : q.Stores 1 (overwrite log call.entries) ∧
      IndexedFrom 1 (overwrite log call.entries) ∧
      q.recoverState = call.state.elim p.recoverState .ok := by
  cases call with
  | persistEntry entry =>
    refine h.step_write hlog hvalid (by simp [PersisterCall.entries]) (fun r hr => ?_) hstep
    exact (persistEntry_eq_some hr).2.symm
  | persistBatch es =>
    by_cases hes : es = []
    · subst hes
      obtain rfl := Option.some.inj hstep
      exact ⟨h,hlog,rfl⟩
    · exact h.step_write hlog hvalid hes (fun r hr => (Option.some.inj hr).symm) hstep
  | persistState currentTerm votedFor =>
    obtain rfl := Option.some.inj hstep
    exact ⟨h.putState _,hlog,by simp [recoverState, PersisterCall.state]⟩
  | recoverEntries =>
    obtain ⟨p',hp',hstores,hsame⟩ := h.recoverEntries
    simp only [PersisterCall.step, PersisterCall.result, hp', Option.bind_eq_bind,
      Option.bind_some] at hstep
    obtain rfl := Option.some.inj hstep
    rw [ite_self] at hstores
    exact ⟨hstores,hlog,recoverState_congr (hsame _ (by decide))⟩

/-- In every state between two calls a restart reads what the reference model says, and the
vote record last written. -/
theorem recovers_reference {calls : List PersisterCall} (h₀ : p.recoverEntries true = .ok (p₀,[]))
    (h : Run PersisterCall.step (fun p call => PersisterCall.Valid p call) p₀ calls q) :
    (∃ q', q.recoverEntries true = .ok (q',referenceLog calls)) ∧
      IndexedFrom 1 (referenceLog calls) ∧
      q.recoverState = referenceState p₀.recoverState calls := by
  have hrun : q.Stores 1 (referenceLog calls) ∧ IndexedFrom 1 (referenceLog calls) ∧
      q.recoverState = referenceState p₀.recoverState calls := by
    induction h with
    | nil =>
      obtain ⟨first,hstores,hfirst,-,-⟩ := stores_of_recoverEntries h₀
      exact ⟨hfirst rfl ▸ hstores,.nil,rfl⟩
    | snoc _ valid next ih =>
      obtain ⟨hstores,hindexed,hstate⟩ := ih
      obtain ⟨hstores',hindexed',hstate'⟩ := hstores.step hindexed valid next
      rw [referenceLog, referenceState, List.foldl_append, List.foldl_append]
      exact ⟨hstores',hindexed',hstate'.trans (by rw [hstate]; rfl)⟩
  obtain ⟨q',hq',-,-⟩ := hrun.1.recoverEntries
  exact ⟨⟨q',hq'⟩,hrun.2⟩

end Reference

section Fresh
attribute [local instance] Proto3.protobuf

/-- Three entries, a vote record, a shorter overwrite of the second entry, and a restart. -/
theorem recovers_reference_fresh : ∃ p₀ q q',
    (⟨Storage.empty⟩ : Persister).recoverEntries true = .ok (p₀,[]) ∧
    Run PersisterCall.step (fun p call => PersisterCall.Valid p call) p₀
      [.persistBatch [⟨1,1,[7]⟩,⟨1,2,[8]⟩,⟨1,3,[9]⟩],.persistState 2 (some 3),
        .persistEntry ⟨2,2,[5]⟩,.recoverEntries] q ∧
    q.recoverEntries true = .ok (q',[⟨1,1,[7]⟩,⟨2,2,[5]⟩]) ∧
    q.recoverState = .ok ⟨2,some 3⟩ := by
  obtain ⟨q,hq,-⟩ : ∃ q, Run PersisterCall.step (fun p call => PersisterCall.Valid p call)
      (⟨Storage.empty.batchWrite
        [.put firstIndexKey (toString 1),.put lastIndexKey (toString 0)]⟩ : Persister)
      [.persistBatch [⟨1,1,[7]⟩,⟨1,2,[8]⟩,⟨1,3,[9]⟩],.persistState 2 (some 3),
        .persistEntry ⟨2,2,[5]⟩,.recoverEntries] q ∧ True :=
    Generic.Run.of_check (by decide) (by decide)
  obtain ⟨⟨q',hq'⟩,-,hstate⟩ := @recovers_reference _ ⟨Storage.empty⟩ _ _ _ rfl hq
  exact ⟨_,q,q',rfl,hq,hq',hstate⟩

end Fresh
end Persister

/-- A call of the log that may change it. -/
inductive LogCall
  | appendEntry (entry : LogEntry)
  | appendEntries (entries : List LogEntry)
  | truncateEntries (startIndex : ℕ)

namespace LogCall

def entries : LogCall → List LogEntry
  | .appendEntry entry => [entry]
  | .appendEntries entries => entries
  | .truncateEntries _ => []

/-- Appended entries carry the 64-bit indexes behind the end of the log. -/
def Continues (l : RaftLog) (call : LogCall) : Prop :=
  IndexedFrom (l.lastLogIndex + 1) call.entries ∧ ∀ e ∈ call.entries, e.index < UInt64.size

instance (l : RaftLog) (call : LogCall) : Decidable (call.Continues l) :=
  inferInstanceAs (Decidable (_ ∧ ∀ e ∈ call.entries, _ < _))

variable [Protobuf]

/-- Nothing of the log is cut, nothing is appended to a log whose store names another first index,
and an entry that is appended alone fits the buffer. -/
def KeepsDisk (l : RaftLog) : LogCall → Prop
  | .appendEntry entry => (Wire.serialize entry : Bytes).length ≤ Persister.bufferSize ∧
    (l.persister.st.get firstIndexKey).bind stoull = some l.firstIndex
  | .appendEntries entries => entries ≠ [] →
    (l.persister.st.get firstIndexKey).bind stoull = some l.firstIndex
  | .truncateEntries startIndex => startIndex < l.firstIndex ∨ l.lastLogIndex < startIndex

instance (l : RaftLog) (call : LogCall) : Decidable (call.KeepsDisk l) :=
  match call with
  | .truncateEntries _ => inferInstanceAs (Decidable (_ ∨ _))
  | .appendEntry _ => inferInstanceAs (Decidable (_ ∧ _))
  | .appendEntries _ => inferInstanceAs (Decidable (_ → _))

/-- The log after a call with all store operations accepted, `none` when the call is undefined; a
refused append changes nothing. -/
def run (l : RaftLog) : LogCall → Option RaftLog
  | .appendEntry entry => (l.appendEntry true entry).map fun r => r.toOption.getD l
  | .appendEntries entries => some ((l.appendEntries true entries).toOption.getD l)
  | .truncateEntries startIndex => l.truncateEntries true startIndex

/-- Only calls whose entries continue the log are made, and none on a log that is undefined. -/
def step (s : Option RaftLog) (call : LogCall) : Option (Option RaftLog) := do
  let l ← s
  if call.Continues l then some (call.run l) else none

/-- The log is still there, and the call keeps it on disk. -/
def KeepsLog (s : Option RaftLog) (call : LogCall) : Prop := ∀ l ∈ s, call.KeepsDisk l

instance (s : Option RaftLog) (call : LogCall) : Decidable (call.KeepsLog s) :=
  inferInstanceAs (Decidable (∀ l ∈ s, call.KeepsDisk l))

end LogCall

namespace RaftLog

section Disk
variable [Protobuf] {l l' : RaftLog} {call : LogCall}

/-- A restart would read the log that is in memory. -/
def AgreesWithDisk (l : RaftLog) : Prop :=
  ∃ l', create l.persister true = .ok l' ∧ l'.firstIndex = l.firstIndex ∧ l'.entries = l.entries

/-- The first index `create` gives a log. -/
abbrev headIndex (entries : List LogEntry) : ℕ :=
  match entries.head? with
  | none => 1
  | some entry => entry.index

/-- The store holds the log in memory. -/
structure OnDisk (l : RaftLog) : Prop where
  stores : ∃ first, l.persister.Stores first l.entries ∧ (l.entries = [] → first = 1)
  firstIndex : l.firstIndex = headIndex l.entries

theorem create_eq_ok {p : Persister} : create p true = .ok l ↔
    p.recoverEntries true = .ok (l.persister,l.entries) ∧ l.firstIndex = headIndex l.entries := by
  unfold create
  constructor
  · intro h
    split at h
    · cases h
    · rename_i q entries hq
      cases h
      exact ⟨hq,rfl⟩
  · rintro ⟨h,hfirst⟩
    rw [h]
    change Except.ok (RaftLog.mk (headIndex l.entries) l.entries l.persister) = _
    rw [← hfirst]

theorem agreesWithDisk_iff : l.AgreesWithDisk ↔
    (∃ p', l.persister.recoverEntries true = .ok (p',l.entries)) ∧
      l.firstIndex = headIndex l.entries := by
  constructor
  · rintro ⟨l',hl',hfirst,hentries⟩
    obtain ⟨hrec,hhead⟩ := create_eq_ok.mp hl'
    exact ⟨⟨_,hentries ▸ hrec⟩,hfirst ▸ hentries ▸ hhead⟩
  · rintro ⟨⟨p',hp'⟩,hfirst⟩
    exact ⟨⟨l.firstIndex,l.entries,p'⟩,create_eq_ok.mpr ⟨hp',hfirst⟩,rfl,rfl⟩

theorem OnDisk.agrees (h : l.OnDisk) : l.AgreesWithDisk := by
  obtain ⟨first,hstores,-⟩ := h.stores
  obtain ⟨p',hp',-,-⟩ := hstores.recoverEntries
  exact agreesWithDisk_iff.mpr ⟨⟨p',hp'⟩,h.firstIndex⟩

theorem onDisk_of_create {p : Persister} (h : create p true = .ok l) : l.OnDisk := by
  obtain ⟨hrec,hfirst⟩ := create_eq_ok.mp h
  obtain ⟨first,hstores,hone,-,-⟩ := Persister.stores_of_recoverEntries hrec
  exact ⟨⟨first,hstores,hone⟩,hfirst⟩

/-- The log after an append that is not refused. -/
theorem append_eq {es : List LogEntry} (hne : es ≠ [])
    (hcall : (∃ e, call = .appendEntry e ∧ es = [e]) ∨ call = .appendEntries es)
    (h : call.run l = some l') : ∃ p', l.persister.persistBatch true es = .ok p' ∧
      l' = { l with entries := l.entries ++ es, persister := p' } := by
  obtain ⟨last,hlast⟩ := Option.ne_none_iff_exists'.mp (mt List.getLast?_eq_none_iff.mp hne)
  have hp := l.persister.persistBatch_eq hlast
  refine ⟨_,hp,?_⟩
  obtain ⟨e,rfl,rfl⟩ | rfl := hcall
  · obtain rfl := Option.some.inj hlast
    obtain ⟨r,hr,rfl⟩ := Option.map_eq_some_iff.mp h
    rw [← (appendEntry_eq_some hr).2, appendEntries, hp]
    rfl
  · rw [LogCall.run, appendEntries, hp] at h
    exact (Option.some.inj h).symm

/-- An append agrees with the disk exactly when the store names the log's first index. -/
theorem OnDisk.append (h : l.OnDisk) {es : List LogEntry} (hne : es ≠ [])
    (hes : IndexedFrom (l.lastLogIndex + 1) es) (hsize : ∀ e ∈ es, e.index < UInt64.size)
    {p' : Persister} (hp' : l.persister.persistBatch true es = .ok p') :
    ((l.persister.st.get firstIndexKey).bind stoull = some l.firstIndex →
      OnDisk { l with entries := l.entries ++ es, persister := p' }) ∧
    (AgreesWithDisk { l with entries := l.entries ++ es, persister := p' } →
      (l.persister.st.get firstIndexKey).bind stoull = some l.firstIndex) := by
  obtain ⟨⟨first,hstores,hone⟩,hfirst⟩ := h
  have hlen := List.length_pos_iff.mpr hne
  obtain ⟨last,hlast⟩ := Option.ne_none_iff_exists'.mp (mt List.getLast?_eq_none_iff.mp hne)
  have hindex := hes.getLast hlast
  have hfit := hsize last (List.mem_of_getLast? hlast)
  constructor
  · intro hmark
    rw [hstores.firstIndex, Option.some.injEq] at hmark
    subst hmark
    have hend : l.lastLogIndex + 1 = l.firstIndex + l.entries.length := by
      have := hstores.pos
      rw [lastLogIndex]
      omega
    rw [hend] at hes hindex
    obtain ⟨q,hq,hq',-,-⟩ := hstores.persistBatch hne hes (by omega) le_rfl (by omega)
    obtain rfl := Except.ok.inj (hp'.symm.trans hq)
    rw [Nat.add_sub_cancel_left, List.take_length] at hq'
    refine ⟨⟨_,hq',by simp [hne]⟩,?_⟩
    rw [hfirst]
    cases hentries : l.entries with
    | nil =>
      obtain ⟨e,es,rfl⟩ := List.exists_cons_of_ne_nil hne
      have := hes 0 e rfl
      rw [hone hentries, hentries] at this
      exact this.symm
    | cons e es => rfl
  · intro hagrees
    obtain ⟨⟨q,hq⟩,-⟩ := agreesWithDisk_iff.mp hagrees
    obtain ⟨f,hq',-,hsame,-⟩ := Persister.stores_of_recoverEntries hq
    obtain rfl := hsame (by simp [hne])
    obtain rfl := Except.ok.inj ((l.persister.persistBatch_eq hlast).symm.trans hp')
    have hf := hq'.firstIndex
    have hl := hq'.lastIndex
    rw [Persister.get_persistBatch l.persister.st _ (c := 116) (by decide) (by decide)
      (by decide)] at hf
    rw [Storage.batchWrite_concat, Storage.WriteOp.run, Storage.get_put_self, Option.bind_some,
      stoull_toString hfit, if_neg (by simp [hne]), List.length_append, Option.some.injEq] at hl
    rw [hf, Option.some.injEq]
    have hpos := hq'.pos
    have hnil : l.entries = [] → l.firstIndex = 1 := fun hnil => by
      rw [hfirst, hnil]
      rfl
    rw [lastLogIndex] at hindex
    obtain hzero | hsome := Nat.eq_zero_or_pos l.entries.length
    · have := hnil (List.length_eq_zero_iff.mp hzero)
      omega
    · omega

/-- A cut inside the log takes entries from memory that a restart still reads. -/
theorem OnDisk.cut (h : l.OnDisk) {startIndex : ℕ} (hge : l.firstIndex ≤ startIndex)
    (hle : startIndex ≤ l.lastLogIndex) (hl' : l.truncateEntries true startIndex = some l') :
    ¬l'.AgreesWithDisk := by
  obtain ⟨⟨first,hstores,-⟩,hfirst⟩ := h
  obtain ⟨q,hq,hlen⟩ : ∃ q, (∀ key c, c ∈ key → 57 < c →
      q.st.get key = l.persister.st.get key) ∧ l' = { l with
        entries := l.entries.take (startIndex - l.firstIndex), persister := q } := by
    unfold truncateEntries at hl'
    rw [if_neg (by omega)] at hl'
    obtain ⟨r,hr,hl'⟩ := Option.bind_eq_some_iff.mp hl'
    cases r with
    | error e => exact ⟨l.persister,fun _ _ _ _ => rfl,(Option.some.inj hl').symm⟩
    | ok q =>
      exact ⟨q,fun _ _ hc hletter => Persister.get_truncateBatch hc hletter hr,
        (Option.some.inj hl').symm⟩
  subst hlen
  intro hagrees
  obtain ⟨⟨q',hrec⟩,-⟩ := agreesWithDisk_iff.mp hagrees
  obtain ⟨f,hq',-,hsame,hlast⟩ := Persister.stores_of_recoverEntries hrec
  have hne : l.entries ≠ [] := by
    intro hnil
    rw [lastLogIndex, hfirst, hnil] at hle
    rw [hfirst, hnil] at hge
    simp only [headIndex, List.head?_nil, List.length_nil] at hge hle
    omega
  have hpos := hstores.pos
  have hlen := List.length_pos_iff.mpr hne
  -- The marker of the last index is what it was before the cut.
  obtain ⟨w,hw,hvalue⟩ := Option.bind_eq_some_iff.mp hstores.lastIndex
  have hmark := hq'.lastIndex
  rw [hlast w ((hq _ 108 (by decide) (by decide)).trans hw), Option.bind_some, hvalue,
    if_neg hne, Option.some.injEq] at hmark
  have hkept : l.entries.take (startIndex - l.firstIndex) ≠ [] := by
    intro hnil
    rw [if_pos hnil] at hmark
    omega
  obtain rfl := hsame hkept
  have hstart := hq'.firstIndex
  rw [hq _ 116 (by decide) (by decide), hstores.firstIndex, Option.some.injEq] at hstart
  rw [if_neg hkept, List.length_take] at hmark
  rw [lastLogIndex] at hle
  omega

/-- A defined call on a log that is on disk. -/
theorem OnDisk.run (h : l.OnDisk) (hcont : call.Continues l) (hrun : call.run l = some l') :
    (call.KeepsDisk l → l'.OnDisk) ∧ (l'.AgreesWithDisk → call.KeepsDisk l) := by
  have happend : ∀ es, es = call.entries → es ≠ [] →
      ((∃ e, call = .appendEntry e ∧ es = [e]) ∨ call = .appendEntries es) →
      ((l.persister.st.get firstIndexKey).bind stoull = some l.firstIndex → l'.OnDisk) ∧
        (l'.AgreesWithDisk →
          (l.persister.st.get firstIndexKey).bind stoull = some l.firstIndex) := by
    rintro es rfl hne hcall
    obtain ⟨p',hp',rfl⟩ := append_eq hne hcall hrun
    exact h.append hne hcont.1 hcont.2 hp'
  cases call with
  | appendEntry entry =>
    obtain ⟨hkeep,hagree⟩ := happend [entry] rfl (by simp) (Or.inl ⟨entry,rfl,rfl⟩)
    obtain ⟨r,hr,-⟩ := Option.map_eq_some_iff.mp hrun
    exact ⟨fun hk => hkeep hk.2,fun ha => ⟨(appendEntry_eq_some hr).1,hagree ha⟩⟩
  | appendEntries es =>
    by_cases hes : es = []
    · subst hes
      obtain rfl := Option.some.inj hrun
      exact ⟨fun _ => h,fun _ hne => absurd rfl hne⟩
    · obtain ⟨hkeep,hagree⟩ := happend es rfl hes (Or.inr rfl)
      exact ⟨fun hk => hkeep (hk hes),fun ha _ => hagree ha⟩
  | truncateEntries startIndex =>
    by_cases hout : startIndex < l.firstIndex ∨ l.lastLogIndex < startIndex
    · rw [LogCall.run, truncateEntries, if_pos hout] at hrun
      obtain rfl := Option.some.inj hrun
      exact ⟨fun _ => h,fun _ => hout⟩
    · exact ⟨fun hk => absurd hk hout,fun ha =>
        absurd ha (h.cut (by omega) (by omega) hrun)⟩

/-- No call that keeps the disk is undefined. -/
theorem run_defined (hkeep : call.KeepsDisk l) : ∃ l', call.run l = some l' := by
  cases call with
  | appendEntry entry => exact ⟨_,by rw [LogCall.run, appendEntry_of_le hkeep.1]; rfl⟩
  | appendEntries es => exact ⟨_,rfl⟩
  | truncateEntries startIndex => exact ⟨l,if_pos hkeep⟩

/-- The log is defined, and a restart would read it. -/
def Agrees (s : Option RaftLog) : Prop := ∃ l, s = some l ∧ l.AgreesWithDisk

/-- A step keeps the log on disk exactly when it meets the condition. -/
theorem OnDisk.step {s : Option RaftLog} (h : l.OnDisk) (hstep : call.step (some l) = some s) :
    (call.KeepsDisk l → ∃ l', s = some l' ∧ l'.OnDisk) ∧ (Agrees s → call.KeepsDisk l) := by
  obtain ⟨hcont,hrun⟩ := Option.ite_none_right_eq_some.mp hstep
  obtain rfl := Option.some.inj hrun
  constructor
  · intro hkeep
    obtain ⟨l',hl'⟩ := run_defined hkeep
    exact ⟨l',hl',(h.run hcont hl').1 hkeep⟩
  · rintro ⟨l',hl',hagrees⟩
    exact (h.run hcont hl').2 hagrees

/-- After every call of a sequence the log is defined and a restart would read it exactly when no
call cuts the log, none appends to a log whose store names another first index, and every entry
that is appended alone fits the buffer of the persister. -/
theorem agrees_with_disk_iff {p : Persister} {l₀ : RaftLog} {calls : List LogCall}
    {s : Option RaftLog} (h₀ : create p true = .ok l₀)
    (h : Run LogCall.step (fun _ _ => True) (some l₀) calls s) :
    (∀ ks m, ks <+: calls → Run LogCall.step (fun _ _ => True) (some l₀) ks m → Agrees m) ↔
      Run LogCall.step LogCall.KeepsLog (some l₀) calls s := by
  have hinit : ∃ l, some l₀ = some l ∧ l.OnDisk := ⟨l₀,rfl,onDisk_of_create h₀⟩
  have hdisk : ∀ {ks m}, Run LogCall.step LogCall.KeepsLog (some l₀) ks m →
      ∃ l, m = some l ∧ l.OnDisk := by
    refine fun hr => Run.invariant (P := fun m => ∃ l, m = some l ∧ l.OnDisk) hinit ?_ hr
    rintro ks _ call m' - ⟨l,rfl,hl⟩ hok hn
    exact (hl.step hn).1 (hok l rfl)
  refine Run.always_iff (P := Agrees) ⟨l₀,rfl,(onDisk_of_create h₀).agrees⟩
    (fun hr _ hn => ?_) h
  obtain ⟨l,rfl,hl⟩ := hdisk hr
  constructor
  · intro hok
    obtain ⟨l',rfl,hl'⟩ := (hl.step hn).1 (hok l rfl)
    exact ⟨l',rfl,hl'.agrees⟩
  · rintro hagrees m heq
    cases heq
    exact (hl.step hn).2 hagrees

end Disk

section Fresh
attribute [local instance] Proto3.protobuf

/-- A new log that takes three entries. -/
theorem agrees_with_disk_fresh : ∃ l₀ s, create ⟨Storage.empty⟩ true = .ok l₀ ∧
    Run LogCall.step (fun _ _ => True) (some l₀)
      [.appendEntry ⟨1,1,[7]⟩,.appendEntries [⟨1,2,[8]⟩,⟨2,3,[9]⟩]] s ∧
    s.map lastLogIndex = some 3 ∧ Agrees s := by
  obtain ⟨s,hs,hlast⟩ : ∃ s, Run LogCall.step LogCall.KeepsLog
      (some ⟨1,[],⟨Storage.empty.batchWrite
        [.put firstIndexKey (toString 1),.put lastIndexKey (toString 0)]⟩⟩)
      [.appendEntry ⟨1,1,[7]⟩,.appendEntries [⟨1,2,[8]⟩,⟨2,3,[9]⟩]] s ∧
      s.map lastLogIndex = some 3 :=
    Generic.Run.of_check (by decide) (by decide)
  have hany : Run LogCall.step (fun _ _ => True) _ _ s := hs.mono fun _ _ _ => trivial
  exact ⟨_,s,rfl,hany,hlast,
    (@agrees_with_disk_iff _ ⟨Storage.empty⟩ _ _ _ rfl hany).mpr hs _ s (List.prefix_refl _) hany⟩

/-- Two entries, and a cut of the second: the store keeps it. -/
theorem cut_entry_on_disk : ∃ l₀, create ⟨Storage.empty⟩ true = .ok l₀ ∧
    ¬∀ ks m, ks <+: [.appendEntries [⟨1,1,[7]⟩,⟨1,2,[8]⟩],.truncateEntries 2] →
      Run LogCall.step (fun _ _ => True) (some l₀) ks m → Agrees m := by
  obtain ⟨s,hs,l,hl,hlog,hdisk⟩ : ∃ s, Run LogCall.step (fun _ _ => True)
      (some ⟨1,[],⟨Storage.empty.batchWrite
        [.put firstIndexKey (toString 1),.put lastIndexKey (toString 0)]⟩⟩)
      [.appendEntries [⟨1,1,[7]⟩,⟨1,2,[8]⟩],.truncateEntries 2] s ∧
      ∃ l ∈ s, l.entries.length = 1 ∧
        ((create l.persister true).toOption.map fun l' => l'.entries.length) = some 2 :=
    Generic.Run.of_check (Generic.accepted_of_forall (fun _ _ => trivial) _ _) (by decide)
  refine ⟨_,rfl,fun h => ?_⟩
  obtain ⟨m,hm,hagrees⟩ := h _ s (List.prefix_refl _) hs
  obtain rfl := Option.some.inj (hl.symm.trans hm)
  obtain ⟨l',hl',-,hentries⟩ := hagrees
  rw [hl'] at hdisk
  have hlen : l'.entries.length = 2 := Option.some.inj hdisk
  rw [hentries] at hlen
  omega

end Fresh
end RaftLog
end Foskv.Raft
