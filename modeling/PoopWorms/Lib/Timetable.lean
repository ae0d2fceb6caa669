import Mathlib.Algebra.Order.Group.Multiset
import Mathlib.Data.List.Sort

/-!
# Timetables

Items are sent with stamps that go up. On their way they may overtake one another or be lost;
those that arrive are held, and the one with the least stamp departs first. While no item
arrives behind one that has departed already, the items depart in the order in which they were
sent.
-/

namespace PoopWorms

open scoped List

/-- The items that were sent, those that are under way, in the line in which they arrive, those that
are held, those that were lost, and those that have departed, first to last. -/
@[ext]
structure Timetable (ι : Type*) where
  sent : List ι
  underWay : List ι
  held : Multiset ι
  lost : Multiset ι
  departed : List ι

namespace Timetable

variable {ι : Type*} (stamp : ι → ℤ)

def empty : Timetable ι := ⟨[], [], 0, 0, []⟩

/-- Items are sent, first to last. -/
def send (t : Timetable ι) (items : List ι) : Timetable ι :=
  { t with sent := t.sent ++ items, underWay := t.underWay ++ items }

/-- The items that are under way form another line. -/
def turn (t : Timetable ι) (line : List ι) : Timetable ι := { t with underWay := line }

/-- An item is lost, and those that are under way form the line. -/
def lose (t : Timetable ι) (a : ι) (line : List ι) : Timetable ι :=
  { t with underWay := line, lost := a ::ₘ t.lost }

/-- An item arrives, and those that are under way form the line. -/
def arrive (t : Timetable ι) (a : ι) (line : List ι) : Timetable ι :=
  { t with underWay := line, held := a ::ₘ t.held }

/-- An item departs, and the rest is held. -/
def depart (t : Timetable ι) (a : ι) (rest : Multiset ι) : Timetable ι :=
  { t with held := rest, departed := t.departed ++ [a] }

/-- Every item that has departed has a lower stamp. -/
def NotOvertaken (t : Timetable ι) (a : ι) : Prop := ∀ b ∈ t.departed, stamp b < stamp a

/-- What became of every item, and the order of the stamps. -/
structure Orderly (t : Timetable ι) : Prop where
  sent : t.sent.Pairwise fun a b => stamp a < stamp b
  account : (t.sent : Multiset ι) = t.departed + t.held + t.underWay + t.lost
  departed : t.departed.Pairwise fun a b => stamp a < stamp b
  held : ∀ a ∈ t.departed, ∀ b ∈ t.held, stamp a < stamp b

/-- The line is in the order of the stamps, behind everything that has arrived. -/
structure InLine (t : Timetable ι) : Prop where
  line : t.underWay.Pairwise fun a b => stamp a < stamp b
  held : ∀ a ∈ t.held, ∀ b ∈ t.underWay, stamp a < stamp b
  departed : ∀ a ∈ t.departed, ∀ b ∈ t.underWay, stamp a < stamp b

variable {stamp} {t : Timetable ι} {a : ι} {items line : List ι} {rest : Multiset ι}

theorem orderly_empty : (empty : Timetable ι).Orderly stamp :=
  ⟨.nil, rfl, .nil, nofun⟩

theorem inLine_empty : (empty : Timetable ι).InLine stamp := ⟨.nil, nofun, nofun⟩

theorem pairwise_concat {l : List ι} (h : l.Pairwise fun a b => stamp a < stamp b)
    (ha : ∀ b ∈ l, stamp b < stamp a) : (l ++ [a]).Pairwise fun a b => stamp a < stamp b := by
  apply List.pairwise_append.mpr
  refine ⟨h, List.pairwise_singleton .., fun b hb c hc => ?_⟩
  rw [List.mem_singleton.mp hc]
  exact ha b hb

/-! ## The order of the departures -/

namespace Orderly

theorem mem_sent (h : t.Orderly stamp) (ha : a ∈ t.departed ∨ a ∈ t.held ∨ a ∈ t.underWay) :
    a ∈ t.sent := by
  have hmem : a ∈ (t.sent : Multiset ι) := by
    rw [h.account]
    simp only [Multiset.mem_add, Multiset.mem_coe]
    tauto
  exact hmem

/-- No two items that were sent have one stamp. -/
theorem nodup_stamps (h : t.Orderly stamp) : (t.sent.map stamp).Nodup :=
  (List.pairwise_map.mpr h.sent).imp fun hlt => ne_of_lt hlt

theorem send (h : t.Orderly stamp)
    (hitems : (t.sent ++ items).Pairwise fun a b => stamp a < stamp b) :
    (t.send items).Orderly stamp where
  sent := hitems
  account := by
    change ((t.sent ++ items : List ι) : Multiset ι) =
      t.departed + t.held + ((t.underWay ++ items : List ι) : Multiset ι) + t.lost
    rw [← Multiset.coe_add, ← Multiset.coe_add, h.account]
    ac_rfl
  departed := h.departed
  held := h.held

theorem turn (h : t.Orderly stamp) (hline : line ~ t.underWay) : (t.turn line).Orderly stamp where
  sent := h.sent
  account := by
    change (t.sent : Multiset ι) = t.departed + t.held + line + t.lost
    rw [h.account, Multiset.coe_eq_coe.mpr hline]
  departed := h.departed
  held := h.held

theorem lose (h : t.Orderly stamp) (ha : a :: line ~ t.underWay) :
    (t.lose a line).Orderly stamp where
  sent := h.sent
  account := by
    change (t.sent : Multiset ι) = t.departed + t.held + line + a ::ₘ t.lost
    rw [h.account, ← Multiset.coe_eq_coe.mpr ha, ← Multiset.cons_coe, ← Multiset.singleton_add,
      ← Multiset.singleton_add]
    ac_rfl
  departed := h.departed
  held := h.held

/-- An item arrives that none of those that have departed has overtaken. -/
theorem arrive (h : t.Orderly stamp) (ha : a :: line ~ t.underWay)
    (hearly : t.NotOvertaken stamp a) : (t.arrive a line).Orderly stamp where
  sent := h.sent
  account := by
    change (t.sent : Multiset ι) = t.departed + a ::ₘ t.held + line + t.lost
    rw [h.account, ← Multiset.coe_eq_coe.mpr ha, ← Multiset.cons_coe, ← Multiset.singleton_add,
      ← Multiset.singleton_add]
    ac_rfl
  departed := h.departed
  held b hb c hc := by
    rcases Multiset.mem_cons.mp hc with rfl | hc
    · exact hearly b hb
    · exact h.held b hb c hc

/-- An item that has departed has another stamp than those under way. -/
theorem ne_of_underWay (h : t.Orderly stamp) {b : ι} (ha : a ∈ t.departed) (hb : b ∈ t.underWay) :
    stamp a ≠ stamp b := by
  have haccount := congrArg (Multiset.map stamp) h.account
  have hnodup : (Multiset.map stamp (t.sent : Multiset ι)).Nodup := h.nodup_stamps
  rw [haccount, Multiset.map_add, Multiset.map_add, Multiset.map_add] at hnodup
  have hdisjoint := (Multiset.nodup_add.mp (Multiset.nodup_add.mp hnodup).1).2.2
  intro heq
  have hmem : stamp b ∈ Multiset.map stamp t.departed + Multiset.map stamp t.held := by
    rw [← heq]
    exact Multiset.mem_add.mpr (.inl (Multiset.mem_map_of_mem stamp ha))
  exact Multiset.disjoint_left.mp hdisjoint hmem (Multiset.mem_map_of_mem stamp hb)

/-- The items that are held have different stamps. -/
theorem ne_of_held (h : t.Orderly stamp) (ha : t.held = a ::ₘ rest) {b : ι} (hb : b ∈ rest) :
    stamp a ≠ stamp b := by
  have haccount := congrArg (Multiset.map stamp) h.account
  have hnodup : (Multiset.map stamp (t.sent : Multiset ι)).Nodup := h.nodup_stamps
  rw [haccount, ha, Multiset.map_add, Multiset.map_add, Multiset.map_add, Multiset.map_cons]
    at hnodup
  have hheld : (stamp a ::ₘ rest.map stamp).Nodup :=
    (Multiset.nodup_add.mp (Multiset.nodup_add.mp (Multiset.nodup_add.mp hnodup).1).1).2.1
  intro heq
  apply (Multiset.nodup_cons.mp hheld).1
  rw [heq]
  exact Multiset.mem_map_of_mem stamp hb

/-- The item that departs has the least stamp of those that are held. -/
theorem lt_of_held (h : t.Orderly stamp) (ha : t.held = a ::ₘ rest)
    (hleast : ∀ b ∈ rest, stamp a ≤ stamp b) {b : ι} (hb : b ∈ rest) : stamp a < stamp b :=
  lt_of_le_of_ne (hleast b hb) (h.ne_of_held ha hb)

theorem depart (h : t.Orderly stamp) (ha : t.held = a ::ₘ rest)
    (hleast : ∀ b ∈ rest, stamp a ≤ stamp b) : (t.depart a rest).Orderly stamp where
  sent := h.sent
  account := by
    change (t.sent : Multiset ι) =
      ((t.departed ++ [a] : List ι) : Multiset ι) + rest + t.underWay + t.lost
    rw [h.account, ← Multiset.coe_add, Multiset.coe_singleton, ha, ← Multiset.singleton_add]
    ac_rfl
  departed := by
    apply pairwise_concat h.departed
    intro b hb
    exact h.held b hb a (by simp [ha])
  held b hb c hc := by
    rcases List.mem_append.mp hb with hb | hb
    · exact h.held b hb c (by simp [ha, show c ∈ rest from hc])
    · rw [List.mem_singleton.mp hb]
      exact h.lt_of_held ha hleast hc

/-- The items depart in the order in which they were sent. -/
theorem departed_sublist (h : t.Orderly stamp) : t.departed <+ t.sent := by
  have hantisymm : Std.Antisymm fun a b : ι => stamp a < stamp b :=
    ⟨fun a b hab hba => absurd hab (lt_asymm hba)⟩
  have hsub : t.departed <+~ t.sent := by
    rw [← Multiset.coe_le, h.account, add_assoc, add_assoc]
    exact Multiset.le_add_right ..
  exact List.sublist_of_subperm_of_pairwise hsub h.departed h.sent

/-- Every item has departed, or is held, under way or lost. -/
theorem card (h : t.Orderly stamp) :
    t.departed.length + t.held.card + t.underWay.length + t.lost.card = t.sent.length := by
  have hcard := congrArg Multiset.card h.account
  simp only [Multiset.card_add, Multiset.coe_card] at hcard
  exact hcard.symm

end Orderly

/-! ## Items that keep in line -/

namespace InLine

theorem send (h : t.InLine stamp) (ht : t.Orderly stamp)
    (hitems : (t.sent ++ items).Pairwise fun a b => stamp a < stamp b) :
    (t.send items).InLine stamp := by
  obtain ⟨-, hpairs, hbehind⟩ := List.pairwise_append.mp hitems
  refine ⟨List.pairwise_append.mpr ⟨h.line, hpairs, fun b hb c hc => ?_⟩, fun b hb c hc => ?_,
    fun b hb c hc => ?_⟩
  · exact hbehind b (ht.mem_sent (.inr (.inr hb))) c hc
  · rcases List.mem_append.mp hc with hc | hc
    · exact h.held b hb c hc
    · exact hbehind b (ht.mem_sent (.inr (.inl hb))) c hc
  · rcases List.mem_append.mp hc with hc | hc
    · exact h.departed b hb c hc
    · exact hbehind b (ht.mem_sent (.inl hb)) c hc

theorem lose (h : t.InLine stamp) (hline : line <+ t.underWay) : (t.lose a line).InLine stamp where
  line := h.line.sublist hline
  held b hb c hc := h.held b hb c (hline.subset hc)
  departed b hb c hc := h.departed b hb c (hline.subset hc)

/-- The first of the line has not been overtaken. -/
theorem notOvertaken (h : t.InLine stamp) (ha : t.underWay = a :: line) : t.NotOvertaken stamp a :=
  fun b hb => h.departed b hb a (by simp [ha])

theorem arrive (h : t.InLine stamp) (ha : t.underWay = a :: line) :
    (t.arrive a line).InLine stamp := by
  have hline := h.line
  rw [ha] at hline
  obtain ⟨hfirst, hrest⟩ := List.pairwise_cons.mp hline
  have hsub : line ⊆ t.underWay := by
    rw [ha]
    exact List.subset_cons_self ..
  refine ⟨hrest, fun b hb c hc => ?_, fun b hb c hc => h.departed b hb c (hsub hc)⟩
  rcases Multiset.mem_cons.mp hb with rfl | hb
  · exact hfirst c hc
  · exact h.held b hb c (hsub hc)

theorem depart (h : t.InLine stamp) (ha : t.held = a ::ₘ rest) :
    (t.depart a rest).InLine stamp where
  line := h.line
  held b hb c hc := h.held b (by simp [ha, show b ∈ rest from hb]) c hc
  departed b hb c hc := by
    rcases List.mem_append.mp hb with hb | hb
    · exact h.departed b hb c hc
    · rw [List.mem_singleton.mp hb]
      exact h.held a (by simp [ha]) c hc

end InLine

end Timetable

end PoopWorms
