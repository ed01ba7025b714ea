import Mathlib.Algebra.BigOperators.Fin
import Hiway.Transport.Accountability

/-!
# The book of the records

A record is written into the ring of its machine. From there it is drained by the host, is
overwritten, or moves into the archive when the machine is retired, and is drained or
overwritten there. A `Book` says where the records are, without rings and machines; what
the driver does to its records is one of a few entries in the book.

* `Balanced.write`: a machine has written records, and its ring has dropped some.
* `Balanced.drainArchived`, `Balanced.drainLive`: the host has drained a record.
* `Balanced.retire`, `Balanced.attach`: a machine is retired, and a slot is attached again.
-/

namespace Hiway.Uring

open Transport

/-- The records of one connection. -/
def recordsOf (c : Connection) (records : List Record) : List Record :=
  records.filter fun record => record.connection = c

@[simp] theorem recordsOf_append (c : Connection) (front back : List Record) :
    recordsOf c (front ++ back) = recordsOf c front ++ recordsOf c back := List.filter_append ..

theorem recordsOf_own {c : Connection} {records : List Record}
    (h : ∀ record ∈ records, record.connection = c) : recordsOf c records = records :=
  List.filter_eq_self.mpr fun record hrecord => decide_eq_true (h record hrecord)

theorem recordsOf_other {c other : Connection} {records : List Record}
    (h : ∀ record ∈ records, record.connection = other) (hne : c ≠ other) :
    recordsOf c records = [] :=
  List.filter_eq_nil_iff.mpr fun record hrecord heq =>
    hne ((of_decide_eq_true heq).symm.trans (h record hrecord))

theorem recordsOf_suffix {c : Connection} {dropped kept records : List Record}
    (h : dropped ++ kept = records) : (recordsOf c kept).Sublist (recordsOf c records) := by
  rw [← h, recordsOf_append]
  exact List.sublist_append_right _ _

/-- Where the records are that have not been drained: with the live machine of a slot, or in
the archive. `lost` counts what the ring of a live machine has overwritten, `overwritten`
what the archive has, and `retired` what the rings of retired machines had. -/
structure Book (links : Nat) where
  live : Fin links → List Record
  lost : Fin links → Nat
  archived : List Record
  overwritten : Nat
  retired : Nat

namespace Book

variable {links : Nat}

def start : Book links := ⟨fun _ => [], fun _ => 0, [], 0, 0⟩

/-- The connection of a slot. -/
def connection (generation : Fin links → Nat) (index : Fin links) : Connection :=
  ⟨index.val, generation index⟩

theorem connection_ne {generation : Fin links → Nat} {index other : Fin links}
    (h : other ≠ index) : connection generation other ≠ connection generation index := by
  intro heq
  exact h (Fin.ext (congrArg Connection.id heq))

/-- The book is balanced: every record that was produced is found or has been counted, and
no connection's records have changed their order. -/
structure Balanced (b : Book links) (generation : Fin links → Nat) (attached : List Connection)
    (drained produced : List Record) : Prop where
  own : ∀ index, ∀ record ∈ b.live index, record.connection = connection generation index
  order : ∀ c, (recordsOf c (drained ++ b.archived)).Sublist (recordsOf c produced)
  current : ∀ index,
    (recordsOf (connection generation index) (drained ++ b.archived ++ b.live index)).Sublist
      (recordsOf (connection generation index) produced)
  count : produced.length = drained.length + b.archived.length +
    (∑ index, (b.live index).length) + (b.overwritten + b.retired + ∑ index, b.lost index)
  attributed : ∀ record ∈ produced, record.connection ∈ attached
  increasing : attached.Pairwise fun c c' => c.id = c'.id → c.generation < c'.generation
  latest : ∀ c ∈ attached, ∀ index : Fin links, c.id = index.val → c.generation ≤ generation index

variable {b : Book links} {generation : Fin links → Nat} {attached : List Connection}
  {drained produced : List Record}

theorem start_balanced : (start : Book links).Balanced generation [] [] [] where
  own := fun _ _ hrecord => absurd hrecord List.not_mem_nil
  order := fun _ => List.Sublist.refl _
  current := fun _ => List.Sublist.refl _
  count := by simp [start]
  attributed := fun _ hrecord => absurd hrecord List.not_mem_nil
  increasing := List.Pairwise.nil
  latest := fun _ hc => absurd hc List.not_mem_nil

theorem sum_update (f : Fin links → Nat) (index : Fin links) (n : Nat) :
    (∑ i, Function.update f index n i) + f index = (∑ i, f i) + n := by
  rw [Finset.sum_update_of_mem (Finset.mem_univ index)]
  have hsplit := Finset.add_sum_erase Finset.univ f (Finset.mem_univ index)
  rw [Finset.sdiff_singleton_eq_erase]
  omega

/-- Entries for one slot: its records and what its ring has overwritten. -/
def set (b : Book links) (index : Fin links) (records : List Record) (lost : Nat) : Book links :=
  { b with
    live := Function.update b.live index records
    lost := Function.update b.lost index lost }

theorem sum_set_live (index : Fin links) (records : List Record) (lost : Nat) :
    (∑ i, ((b.set index records lost).live i).length) + (b.live index).length =
      (∑ i, (b.live i).length) + records.length := by
  have hupdate : (fun i => ((b.set index records lost).live i).length) =
      Function.update (fun i => (b.live i).length) index records.length := by
    funext i
    unfold set
    dsimp only
    by_cases heq : i = index
    · subst heq
      rw [Function.update_self, Function.update_self]
    · rw [Function.update_of_ne heq, Function.update_of_ne heq]
  rw [hupdate]
  exact sum_update (fun i => (b.live i).length) index records.length

/-- A machine has written records, and its ring has dropped some. -/
theorem Balanced.write (h : b.Balanced generation attached drained produced) {index : Fin links}
    {records dropped kept : List Record}
    (hown : ∀ record ∈ records, record.connection = connection generation index)
    (hattached : connection generation index ∈ attached)
    (hsplit : dropped ++ kept = b.live index ++ records) :
    (b.set index kept (b.lost index + dropped.length)).Balanced generation attached drained
      (produced ++ records) where
  own := by
    intro other record hrecord
    by_cases heq : other = index
    · subst heq
      have hkept : record ∈ kept := by
        simpa [set] using hrecord
      have hmem : record ∈ b.live other ++ records := by
        rw [← hsplit]
        exact List.mem_append_right _ hkept
      rcases List.mem_append.mp hmem with hlive | hnew
      · exact h.own other record hlive
      · exact hown record hnew
    · refine h.own other record ?_
      simpa [set, Function.update_of_ne heq] using hrecord
  order := by
    intro c
    rw [recordsOf_append _ produced]
    exact (h.order c).trans (List.sublist_append_left _ _)
  current := by
    intro other
    by_cases heq : other = index
    · subst heq
      have hlive : (b.set other kept (b.lost other + dropped.length)).live other = kept := by
        simp [set]
      rw [hlive, recordsOf_append _ produced, recordsOf_append]
      have hcurrent := (h.current other).append
        (List.Sublist.refl (recordsOf (connection generation other) records))
      refine List.Sublist.trans ?_ hcurrent
      rw [recordsOf_append _ _ (b.live other), List.append_assoc, ← recordsOf_append _ _ records]
      exact (List.Sublist.refl _).append (recordsOf_suffix hsplit)
    · have hlive : (b.set index kept (b.lost index + dropped.length)).live other = b.live other := by
        simp [set, Function.update_of_ne heq]
      rw [hlive, recordsOf_append _ produced]
      exact (h.current other).trans (List.sublist_append_left _ _)
  count := by
    have hlive := sum_set_live (b := b) index kept (b.lost index + dropped.length)
    have hlost := sum_update b.lost index (b.lost index + dropped.length)
    have hlength := congrArg List.length hsplit
    rw [List.length_append, List.length_append] at hlength
    have hcount := h.count
    rw [List.length_append]
    change _ = drained.length + b.archived.length + _ + (b.overwritten + b.retired +
      ∑ i, Function.update b.lost index (b.lost index + dropped.length) i)
    omega
  attributed := by
    intro record hrecord
    rcases List.mem_append.mp hrecord with hold | hnew
    · exact h.attributed record hold
    · rw [hown record hnew]
      exact hattached
  increasing := h.increasing
  latest := h.latest

/-- The host has drained the oldest archived record. -/
theorem Balanced.drainArchived (h : b.Balanced generation attached drained produced)
    {record : Record} {rest : List Record} (harchived : b.archived = record :: rest) :
    ({ b with archived := rest } : Book links).Balanced generation attached
      (drained ++ [record]) produced where
  own := h.own
  order := by
    intro c
    have horder := h.order c
    rw [harchived] at horder
    rw [List.append_assoc]
    exact horder
  current := by
    intro index
    have hcurrent := h.current index
    rw [harchived] at hcurrent
    rw [List.append_assoc drained]
    exact hcurrent
  count := by
    have hcount := h.count
    rw [harchived, List.length_cons] at hcount
    rw [List.length_append, List.length_singleton]
    change _ = _ + rest.length + (∑ index, (b.live index).length) +
      (b.overwritten + b.retired + ∑ index, b.lost index)
    omega
  attributed := h.attributed
  increasing := h.increasing
  latest := h.latest

/-- The host has drained the oldest record of a machine, and nothing is archived. -/
theorem Balanced.drainLive (h : b.Balanced generation attached drained produced)
    {index : Fin links} {record : Record} {rest : List Record} (harchived : b.archived = [])
    (hlive : b.live index = record :: rest) :
    (b.set index rest (b.lost index)).Balanced generation attached (drained ++ [record])
      produced := by
  have hconnection : record.connection = connection generation index :=
    h.own index record (hlive ▸ List.mem_cons_self)
  have hother : ∀ c, c ≠ connection generation index → recordsOf c [record] = [] := by
    intro c hne
    have hsame : ∀ r ∈ [record], r.connection = connection generation index := by
      intro r hr
      rw [List.mem_singleton.mp hr]
      exact hconnection
    exact recordsOf_other hsame hne
  have hcurrent := h.current index
  rw [harchived, hlive, List.append_nil] at hcurrent
  have hset : (b.set index rest (b.lost index)).archived = [] := harchived
  refine ⟨fun other r hr => ?_, fun c => ?_, fun other => ?_, ?_, h.attributed, h.increasing,
    h.latest⟩
  · by_cases heq : other = index
    · subst heq
      refine h.own other r ?_
      rw [hlive]
      exact List.mem_cons_of_mem _ (by simpa [set] using hr)
    · refine h.own other r ?_
      simpa [set, Function.update_of_ne heq] using hr
  · rw [hset, List.append_nil]
    by_cases heq : c = connection generation index
    · subst heq
      refine List.Sublist.trans ?_ hcurrent
      have hfirst := recordsOf_append (connection generation index) [record] rest
      rw [List.singleton_append] at hfirst
      rw [recordsOf_append, recordsOf_append, hfirst]
      exact (List.Sublist.refl _).append (List.sublist_append_left _ _)
    · have horder := h.order c
      rw [harchived, List.append_nil] at horder
      rw [recordsOf_append, hother c heq, List.append_nil]
      exact horder
  · rw [hset, List.append_nil]
    by_cases heq : other = index
    · subst heq
      have hrest : (b.set other rest (b.lost other)).live other = rest := by simp [set]
      rw [hrest, List.append_assoc]
      exact hcurrent
    · have hrest : (b.set index rest (b.lost index)).live other = b.live other := by
        simp [set, Function.update_of_ne heq]
      have hsame := h.current other
      rw [harchived, List.append_nil, recordsOf_append] at hsame
      rw [hrest, recordsOf_append, recordsOf_append, hother _ (connection_ne heq), List.append_nil]
      exact hsame
  · have hsum := sum_set_live (b := b) index rest (b.lost index)
    have hlost : (b.set index rest (b.lost index)).lost = b.lost := Function.update_eq_self index b.lost
    have hcount := h.count
    rw [hlive, List.length_cons] at hsum
    rw [harchived] at hcount
    rw [hset, hlost, List.length_append, List.length_singleton]
    change _ = _ + _ + _ + (b.overwritten + b.retired + _)
    omega

/-- The records of a machine have moved into the archive, which has dropped some. -/
theorem Balanced.retire (h : b.Balanced generation attached drained produced) {index : Fin links}
    {dropped kept : List Record} (hsplit : dropped ++ kept = b.archived ++ b.live index) :
    ({ b.set index [] 0 with
        archived := kept
        overwritten := b.overwritten + dropped.length
        retired := b.retired + b.lost index } : Book links).Balanced generation attached drained
      produced := by
  have horder : ∀ c, (recordsOf c (drained ++ kept)).Sublist (recordsOf c produced) := by
    intro c
    have hkept : (recordsOf c (drained ++ kept)).Sublist
        (recordsOf c (drained ++ (b.archived ++ b.live index))) := by
      rw [recordsOf_append, recordsOf_append]
      exact (List.Sublist.refl _).append (recordsOf_suffix hsplit)
    refine hkept.trans ?_
    rw [← List.append_assoc]
    by_cases heq : c = connection generation index
    · subst heq
      exact h.current index
    · rw [recordsOf_append, recordsOf_other (h.own index) heq, List.append_nil]
      exact h.order c
  refine ⟨fun other r hr => ?_, horder, fun other => ?_, ?_, h.attributed, h.increasing, h.latest⟩
  · by_cases heq : other = index
    · subst heq
      simp [set] at hr
    · refine h.own other r ?_
      simpa [set, Function.update_of_ne heq] using hr
  · by_cases heq : other = index
    · subst heq
      have hnil : (b.set other [] 0).live other = [] := by simp [set]
      change (recordsOf _ (drained ++ kept ++ (b.set other [] 0).live other)).Sublist _
      rw [hnil, List.append_nil]
      exact horder _
    · have hsame : (b.set index [] 0).live other = b.live other := by
        simp [set, Function.update_of_ne heq]
      change (recordsOf _ (drained ++ kept ++ (b.set index [] 0).live other)).Sublist _
      rw [hsame]
      have hne : connection generation other ≠ connection generation index := connection_ne heq
      have hempty := recordsOf_other (h.own index) hne
      have hkept := recordsOf_suffix (c := connection generation other) hsplit
      rw [recordsOf_append, hempty, List.append_nil] at hkept
      refine List.Sublist.trans ?_ (h.current other)
      rw [recordsOf_append, recordsOf_append, recordsOf_append, recordsOf_append]
      exact ((List.Sublist.refl _).append hkept).append (List.Sublist.refl _)
  · have hlive := sum_set_live (b := b) index [] 0
    have hlost := sum_update b.lost index 0
    have hlength := congrArg List.length hsplit
    rw [List.length_append, List.length_append] at hlength
    have hcount := h.count
    rw [List.length_nil] at hlive
    change _ = drained.length + kept.length + (∑ i, ((b.set index [] 0).live i).length) +
      (b.overwritten + dropped.length + (b.retired + b.lost index) +
        ∑ i, Function.update b.lost index 0 i)
    omega

/-- A slot without records is attached under its next generation. -/
theorem Balanced.attach (h : b.Balanced generation attached drained produced) {index : Fin links}
    (hlive : b.live index = []) :
    b.Balanced (Function.update generation index (generation index + 1))
      (attached ++ [⟨index.val, generation index + 1⟩]) drained produced := by
  have hsame : ∀ other, other ≠ index →
      connection (Function.update generation index (generation index + 1)) other =
        connection generation other := by
    intro other hne
    unfold connection
    rw [Function.update_of_ne hne]
  refine ⟨fun other r hr => ?_, h.order, fun other => ?_, h.count, fun record hrecord => ?_, ?_,
    fun c hc other hid => ?_⟩
  · by_cases heq : other = index
    · subst heq
      rw [hlive] at hr
      cases hr
    · rw [hsame other heq]
      exact h.own other r hr
  · by_cases heq : other = index
    · subst heq
      rw [hlive, List.append_nil]
      exact h.order _
    · rw [hsame other heq]
      exact h.current other
  · exact List.mem_append_left _ (h.attributed record hrecord)
  · rw [List.pairwise_append]
    refine ⟨h.increasing, List.pairwise_singleton _ _, fun c hc c' hc' hid => ?_⟩
    rw [List.mem_singleton.mp hc'] at hid ⊢
    exact Nat.lt_succ_of_le (h.latest c hc index hid)
  · rcases List.mem_append.mp hc with hold | hnew
    · by_cases heq : other = index
      · subst heq
        rw [Function.update_self]
        exact Nat.le_succ_of_le (h.latest c hold other hid)
      · rw [Function.update_of_ne heq]
        exact h.latest c hold other hid
    · rw [List.mem_singleton.mp hnew] at hid ⊢
      obtain rfl : index = other := Fin.ext hid
      rw [Function.update_self]

end Book

end Hiway.Uring
