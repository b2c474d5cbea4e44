import Mathlib.Data.Finset.Union

/-! Connected components by merging: the blocks that a new edge of several points meets become one with it. -/

namespace Longcoin.Library.Components
open Finset

variable {α : Type} [DecidableEq α]

def Joined (edges : Finset α → Prop) (first second : α) : Prop := ∃ edge, edges edge ∧ first ∈ edge ∧ second ∈ edge

def Linked (edges : Finset α → Prop) : α → α → Prop := Relation.ReflTransGen (Joined edges)

omit [DecidableEq α] in
theorem Linked.symm {edges : Finset α → Prop} {first second : α} (linked : Linked edges first second) : Linked edges second first := by
  induction linked with
  | refl => exact .refl
  | tail _ step ih =>
    obtain ⟨edge, member, inside, inside'⟩ := step
    exact (Relation.ReflTransGen.single ⟨edge, member, inside', inside⟩).trans ih

omit [DecidableEq α] in
theorem Linked.mono {edges more : Finset α → Prop} (le : ∀ edge, edges edge → more edge) {first second : α}
    (linked : Linked edges first second) : Linked more first second := by
  refine Relation.ReflTransGen.mono (fun first second joined => ?_) _ _ linked
  obtain ⟨edge, member, inside⟩ := joined
  exact ⟨edge, le edge member, inside⟩

structure IsComponents (blocks : Finset (Finset α)) (edges : Finset α → Prop) : Prop where
  nonempty : ∀ block ∈ blocks, block.Nonempty
  covered : ∀ point, (∃ block ∈ blocks, point ∈ block) ↔ ∃ edge, edges edge ∧ point ∈ edge
  disjoint : ∀ block ∈ blocks, ∀ other ∈ blocks, ∀ point, point ∈ block → point ∈ other → block = other
  connected : ∀ block ∈ blocks, ∀ first ∈ block, ∀ second, second ∈ block ↔ Linked edges first second

omit [DecidableEq α] in
theorem isComponents_empty : IsComponents ∅ fun _ : Finset α => False where
  nonempty _ none := absurd none (notMem_empty _)
  covered _ := iff_of_false (fun some => notMem_empty _ some.choose_spec.1) fun some => some.choose_spec.1
  disjoint _ none := absurd none (notMem_empty _)
  connected _ none := absurd none (notMem_empty _)

omit [DecidableEq α] in
theorem IsComponents.same_block {blocks : Finset (Finset α)} {edges : Finset α → Prop} (components : IsComponents blocks edges)
    {first : α} (covered : ∃ edge, edges edge ∧ first ∈ edge) (second : α) :
    (∃ block ∈ blocks, first ∈ block ∧ second ∈ block) ↔ Linked edges first second := by
  constructor
  · rintro ⟨block, member, inside, inside'⟩
    exact (components.connected block member first inside second).mp inside'
  · intro linked
    obtain ⟨block, member, inside⟩ := (components.covered first).mpr covered
    exact ⟨block, member, inside, (components.connected block member first inside second).mpr linked⟩

def hits (blocks : Finset (Finset α)) (edge : Finset α) : Finset (Finset α) := blocks.filter fun block => (block ∩ edge).Nonempty

def merged (blocks : Finset (Finset α)) (edge : Finset α) : Finset α := edge ∪ (hits blocks edge).biUnion id

def merge (blocks : Finset (Finset α)) (edge : Finset α) : Finset (Finset α) := insert (merged blocks edge) (blocks \ hits blocks edge)

section Merge

variable {blocks : Finset (Finset α)} {edges : Finset α → Prop} {edge : Finset α}

theorem mem_hits {block : Finset α} : block ∈ hits blocks edge ↔ block ∈ blocks ∧ ∃ point ∈ block, point ∈ edge := by
  rw [hits, mem_filter]
  refine and_congr_right fun _ => ?_
  simp only [Finset.Nonempty, mem_inter]

theorem mem_merged {point : α} : point ∈ merged blocks edge ↔ point ∈ edge ∨ ∃ block ∈ hits blocks edge, point ∈ block := by
  rw [merged, mem_union, mem_biUnion]
  rfl

theorem mem_merge {block : Finset α} :
    block ∈ merge blocks edge ↔ block = merged blocks edge ∨ block ∈ blocks ∧ ∀ point ∈ block, point ∉ edge := by
  rw [merge, mem_insert, mem_sdiff, mem_hits]
  refine or_congr_right ⟨fun old => ⟨old.1, fun point inside touched => old.2 ⟨old.1, point, inside, touched⟩⟩,
    fun old => ⟨old.1, ?_⟩⟩
  rintro ⟨-, point, inside, touched⟩
  exact old.2 point inside touched

def more (edges : Finset α → Prop) (edge : Finset α) (other : Finset α) : Prop := other = edge ∨ edges other

omit [DecidableEq α] in
theorem linked_inside {edges : Finset α → Prop} (inside : α → Prop)
    (closed : ∀ first second, inside first → Joined edges first second → inside second) {first second : α} (start : inside first)
    (linked : Linked edges first second) : inside second := by
  induction linked with
  | refl => exact start
  | tail _ step ih => exact closed _ _ ih step

omit [DecidableEq α] in
theorem IsComponents.apart_connected (components : IsComponents blocks edges) {block : Finset α} (member : block ∈ blocks)
    (apart : ∀ point ∈ block, point ∉ edge) {first : α} (inside : first ∈ block) (second : α) :
    second ∈ block ↔ Linked (more edges edge) first second := by
  constructor
  · intro inside'
    exact ((components.connected block member first inside second).mp inside').mono fun _ old => .inr old
  · refine linked_inside (· ∈ block) ?_ inside
    rintro one two within ⟨other, rfl | old, here, there⟩
    · exact absurd here (apart one within)
    · exact (components.connected block member one within two).mpr (.single ⟨other, old, here, there⟩)

theorem IsComponents.linked_edge (components : IsComponents blocks edges) {point : α} (inside : point ∈ merged blocks edge) :
    ∃ touched ∈ edge, Linked (more edges edge) point touched := by
  rcases mem_merged.mp inside with here | ⟨block, hit, within⟩
  · exact ⟨point, here, .refl⟩
  · obtain ⟨member, touched, inside', here⟩ := mem_hits.mp hit
    exact ⟨touched, here, ((components.connected block member point within touched).mp inside').mono fun _ old => .inr old⟩

theorem IsComponents.merged_connected (components : IsComponents blocks edges) {first : α} (inside : first ∈ merged blocks edge)
    (second : α) : second ∈ merged blocks edge ↔ Linked (more edges edge) first second := by
  constructor
  · intro inside'
    obtain ⟨touched, here, linked⟩ := components.linked_edge inside
    obtain ⟨touched', here', linked'⟩ := components.linked_edge inside'
    exact (linked.tail ⟨edge, .inl rfl, here, here'⟩).trans linked'.symm
  · refine linked_inside (· ∈ merged blocks edge) ?_ inside
    rintro one two within ⟨other, rfl | old, here, there⟩
    · exact mem_merged.mpr (.inl there)
    · obtain ⟨block, member, within'⟩ := (components.covered one).mpr ⟨other, old, here⟩
      have hit : block ∈ hits blocks edge := by
        rcases mem_merged.mp within with touched | ⟨block', hit, within''⟩
        · exact mem_hits.mpr ⟨member, one, within', touched⟩
        · rwa [components.disjoint block member block' (mem_hits.mp hit).1 one within' within'']
      exact mem_merged.mpr (.inr ⟨block, hit, (components.connected block member one within' two).mpr (.single ⟨other, old, here, there⟩)⟩)

theorem IsComponents.merge (components : IsComponents blocks edges) (nonempty : edge.Nonempty) :
    IsComponents (merge blocks edge) (more edges edge) where
  nonempty block member := by
    rcases mem_merge.mp member with rfl | ⟨old, -⟩
    · exact nonempty.mono fun point inside => mem_merged.mpr (.inl inside)
    · exact components.nonempty block old
  covered point := by
    constructor
    · rintro ⟨block, member, inside⟩
      rcases mem_merge.mp member with rfl | ⟨old, -⟩
      · rcases mem_merged.mp inside with here | ⟨block, hit, within⟩
        · exact ⟨edge, .inl rfl, here⟩
        · obtain ⟨other, earlier, here⟩ := (components.covered point).mp ⟨block, (mem_hits.mp hit).1, within⟩
          exact ⟨other, .inr earlier, here⟩
      · obtain ⟨other, earlier, here⟩ := (components.covered point).mp ⟨block, old, inside⟩
        exact ⟨other, .inr earlier, here⟩
    · rintro ⟨other, rfl | earlier, here⟩
      · exact ⟨_, mem_merge.mpr (.inl rfl), mem_merged.mpr (.inl here)⟩
      · obtain ⟨block, member, inside⟩ := (components.covered point).mpr ⟨other, earlier, here⟩
        by_cases touched : ∃ point ∈ block, point ∈ edge
        · exact ⟨_, mem_merge.mpr (.inl rfl), mem_merged.mpr (.inr ⟨block, mem_hits.mpr ⟨member, touched⟩, inside⟩)⟩
        · exact ⟨block, mem_merge.mpr (.inr ⟨member, fun point within here => touched ⟨point, within, here⟩⟩), inside⟩
  disjoint block member other member' point inside inside' := by
    have away : ∀ {block : Finset α}, block ∈ blocks → (∀ point ∈ block, point ∉ edge) → point ∈ block →
        point ∉ merged blocks edge := by
      intro block member apart inside within
      rcases mem_merged.mp within with here | ⟨block', hit, inside'⟩
      · exact apart point inside here
      · obtain ⟨member', touched, inside'', here⟩ := mem_hits.mp hit
        obtain rfl := components.disjoint block member block' member' point inside inside'
        exact apart touched inside'' here
    rcases mem_merge.mp member with rfl | ⟨old, apart⟩ <;> rcases mem_merge.mp member' with rfl | ⟨old', apart'⟩
    · rfl
    · exact absurd inside (away old' apart' inside')
    · exact absurd inside' (away old apart inside)
    · exact components.disjoint block old other old' point inside inside'
  connected block member first inside second := by
    rcases mem_merge.mp member with rfl | ⟨old, apart⟩
    · exact components.merged_connected inside second
    · exact components.apart_connected old apart inside second

end Merge

end Longcoin.Library.Components
