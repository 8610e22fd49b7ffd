import SupplyGraph.Graph.Components
import SupplyGraph.Proofs.Cancellation
import SupplyGraph.Proofs.Store.Table
import Mathlib.Logic.Relation
import Mathlib.Data.Nat.Basic
import Mathlib.Order.Basic

/-!
The invariant of the search for components. `Numbered` is about who was met, `Trail` about the nodes whose
component is open, `Settled` about the components that are complete. Four moves make up every step: a node is
entered, a frame is adjusted, a frame is popped, a component is completed.
-/

namespace SupplyGraph.Components.Search
open Relation

def Leads (children : NodeId → List NodeId) (id child : NodeId) : Prop := child ∈ children id

def number (search : Search) (id : NodeId) : Nat := search.numbers.getD id 0

def Pending (search : Search) (id child : NodeId) : Prop :=
  ∃ frame ∈ search.frames, frame.id = id ∧ child ∈ frame.remaining

structure Numbered (known : NodeId → Prop) (search : Search) : Prop where
  unseen_iff : ∀ id, id ∈ search.unseen ↔ known id ∧ id ∉ search.numbers
  known_of_met : ∀ id ∈ search.numbers, known id
  met_iff : ∀ id, id ∈ search.numbers ↔ id ∈ search.stack ∨ id ∈ search.representatives
  not_both : ∀ id ∈ search.stack, id ∉ search.representatives
  number_lt : ∀ id ∈ search.numbers, search.number id < search.numbers.size
  stack_sorted : search.stack.Pairwise fun upper lower => search.number lower < search.number upper

structure Trail (children : NodeId → List NodeId) (search : Search) : Prop where
  frame_open : ∀ frame ∈ search.frames, frame.id ∈ search.stack
  frame_number : ∀ frame ∈ search.frames, frame.number = search.number frame.id
  frames_sorted : search.frames.Pairwise fun upper lower => lower.number < upper.number
  remaining_children : ∀ frame ∈ search.frames, ∀ child ∈ frame.remaining, child ∈ children frame.id
  examined : ∀ id ∈ search.numbers, ∀ child ∈ children id, child ∈ search.numbers ∨ search.Pending id child
  covered : ∀ id ∈ search.stack, ∃ frame ∈ search.frames, frame.number ≤ search.number id
  reached : ∀ frame ∈ search.frames, ∀ id ∈ search.stack, frame.number ≤ search.number id →
    ReflTransGen (Leads children) frame.id id
  -- A node that was left leads back to an earlier open node.
  returns : ∀ id ∈ search.stack, (∀ frame ∈ search.frames, frame.id ≠ id) →
    ∃ other ∈ search.stack, search.number other < search.number id ∧ ReflTransGen (Leads children) id other
  low_le : ∀ frame ∈ search.frames, frame.low ≤ frame.number
  low_met : ∀ frame ∈ search.frames, ∃ id ∈ search.stack, search.number id = frame.low ∧
    ReflTransGen (Leads children) frame.id id
  -- Every edge looked at above a frame is accounted for in the low of a frame from there on.
  low_covers : ∀ frame ∈ search.frames, ∀ id ∈ search.stack, ∀ child ∈ search.stack, child ∈ children id →
    frame.number ≤ search.number id → ¬ search.Pending id child →
    ∃ inner ∈ search.frames, frame.number ≤ inner.number ∧ inner.low ≤ search.number child

structure Settled (children : NodeId → List NodeId) (search : Search) : Prop where
  closed : ∀ id ∈ search.representatives, ∀ child ∈ children id, child ∈ search.representatives
  together : ∀ id representative : NodeId, search.representatives[id]? = some representative →
    ReflTransGen (Leads children) id representative ∧ ReflTransGen (Leads children) representative id
  same : ∀ id ∈ search.representatives, ∀ other ∈ search.representatives,
    ReflTransGen (Leads children) id other → ReflTransGen (Leads children) other id →
    search.representatives[id]? = search.representatives[other]?
  listed : ∀ id representative : NodeId, search.representatives[id]? = some representative →
    ∃ members, (representative, members) ∈ search.completedReversed
  members_iff : ∀ part ∈ search.completedReversed, ∀ id,
    id ∈ part.2 ↔ search.representatives[id]? = some part.1
  members_nodup : ∀ part ∈ search.completedReversed, part.2.Nodup
  members_head : ∀ part ∈ search.completedReversed, part.2.head? = some part.1
  ordered : search.completedReversed.Pairwise fun later earlier =>
    ∀ id ∈ later.2, ∀ other ∈ earlier.2, ¬ ReflTransGen (Leads children) other id

structure Invariant (children : NodeId → List NodeId) (known : NodeId → Prop) (search : Search) : Prop where
  numbered : Numbered known search
  trail : Trail children search
  settled : Settled children search

variable {children : NodeId → List NodeId} {known : NodeId → Prop} {search : Search}

theorem invariant_start {unseen : Std.TreeSet NodeId} (all : ∀ id, id ∈ unseen ↔ known id) :
    Invariant children known { unseen } where
  numbered := by constructor <;> simp [all]
  trail := by constructor <;> simp
  settled := by constructor <;> simp

theorem Numbered.met_of_open (numbered : Numbered known search) {id : NodeId} (isOpen : id ∈ search.stack) :
    id ∈ search.numbers :=
  (numbered.met_iff id).2 (Or.inl isOpen)

theorem Numbered.met_of_seen (numbered : Numbered known search) {id : NodeId} (present : known id)
    (seen : id ∉ search.unseen) : id ∈ search.numbers := by
  by_contra missing
  exact seen ((numbered.unseen_iff id).2 ⟨present, missing⟩)

/-! ## The top frame -/

section Top

variable {frame other : Frame} {below : List Frame}

theorem Trail.below_lt (trail : Trail children search) (split : search.frames = frame :: below)
    (inside : other ∈ below) : other.number < frame.number := by
  have sorted := trail.frames_sorted
  rw [split] at sorted
  exact (List.pairwise_cons.1 sorted).1 other inside

theorem Trail.le_top (trail : Trail children search) (split : search.frames = frame :: below)
    (held : other ∈ search.frames) : other.number ≤ frame.number := by
  rw [split] at held
  rcases List.mem_cons.1 held with rfl | inside
  · exact le_rfl
  · exact (trail.below_lt split inside).le

theorem Trail.eq_top (trail : Trail children search) (split : search.frames = frame :: below)
    (held : other ∈ search.frames) (le : frame.number ≤ other.number) : other = frame := by
  rw [split] at held
  exact (List.mem_cons.1 held).resolve_right fun inside => absurd le (Nat.not_le.2 (trail.below_lt split inside))

theorem pending_of_below {next : Search} (split : search.frames = frame :: below) (looked : frame.remaining = [])
    (frames : next.frames = below) {id child : NodeId} (waits : search.Pending id child) : next.Pending id child := by
  obtain ⟨holding, held, holder, remains⟩ := waits
  rw [split] at held
  rcases List.mem_cons.1 held with rfl | inside
  · rw [looked] at remains
    exact absurd remains List.not_mem_nil
  · exact ⟨holding, frames ▸ inside, holder, remains⟩

end Top

/-! ## Entering a node -/

section Enter

variable {id other : NodeId}

theorem mem_numbers_enter : other ∈ (search.enter children id).numbers ↔ id = other ∨ other ∈ search.numbers := by
  simp [enter]

theorem number_enter_self : (search.enter children id).number id = search.numbers.size := by
  simp [number, enter]

theorem number_enter_of_ne (different : id ≠ other) :
    (search.enter children id).number other = search.number other := by
  simp [number, enter, Std.TreeMap.getD_insert, different]

theorem Numbered.not_met (numbered : Numbered known search) (fresh : id ∈ search.unseen) : id ∉ search.numbers :=
  ((numbered.unseen_iff id).1 fresh).2

theorem Numbered.ne_of_open (numbered : Numbered known search) (fresh : id ∈ search.unseen)
    (isOpen : other ∈ search.stack) : id ≠ other := by
  rintro rfl
  exact numbered.not_met fresh (numbered.met_of_open isOpen)

theorem Numbered.number_enter (numbered : Numbered known search) (fresh : id ∈ search.unseen)
    (isOpen : other ∈ search.stack) : (search.enter children id).number other = search.number other :=
  number_enter_of_ne (numbered.ne_of_open fresh isOpen)

theorem Numbered.number_lt_enter (numbered : Numbered known search) (fresh : id ∈ search.unseen)
    (isOpen : other ∈ search.stack) :
    (search.enter children id).number other < (search.enter children id).number id := by
  rw [numbered.number_enter fresh isOpen, number_enter_self]
  exact numbered.number_lt other (numbered.met_of_open isOpen)

theorem Numbered.enter (numbered : Numbered known search) (fresh : id ∈ search.unseen) :
    Numbered known (search.enter children id) where
  unseen_iff other := by
    rw [mem_numbers_enter]
    simp only [Search.enter, Std.TreeSet.mem_erase, Std.compare_eq_iff_eq, ne_eq, numbered.unseen_iff]
    tauto
  known_of_met other met := by
    rcases mem_numbers_enter.1 met with rfl | met
    · exact ((numbered.unseen_iff _).1 fresh).1
    · exact numbered.known_of_met other met
  met_iff other := by
    rw [mem_numbers_enter, numbered.met_iff]
    simp only [Search.enter, List.mem_cons, eq_comm (a := id), or_assoc]
  not_both other isOpen := by
    rcases List.mem_cons.1 isOpen with rfl | isOpen
    · intro settled
      exact numbered.not_met fresh ((numbered.met_iff _).2 (Or.inr settled))
    · exact numbered.not_both other isOpen
  number_lt other met := by
    have size : (search.enter children id).numbers.size = search.numbers.size + 1 := by
      simp [Search.enter, Std.TreeMap.size_insert, numbered.not_met fresh]
    by_cases same : id = other
    · subst same
      rw [number_enter_self, size]
      exact Nat.lt_succ_self _
    · rw [number_enter_of_ne same, size]
      have old := (mem_numbers_enter.1 met).resolve_left same
      exact Nat.lt_succ_of_lt (numbered.number_lt other old)
  stack_sorted := by
    refine List.pairwise_cons.2 ⟨fun other isOpen => numbered.number_lt_enter fresh isOpen, ?_⟩
    refine numbered.stack_sorted.imp_of_mem ?_
    intro upper lower upperOpen lowerOpen less
    rwa [numbered.number_enter fresh upperOpen, numbered.number_enter fresh lowerOpen]

theorem Trail.enter (trail : Trail children search) (numbered : Numbered known search) (fresh : id ∈ search.unseen)
    (leads : ∀ frame ∈ search.frames, ReflTransGen (Leads children) frame.id id) :
    Trail children (search.enter children id) := by
  have frame_number (frame : Frame) (member : frame ∈ search.frames) :
      frame.number = (search.enter children id).number frame.id := by
    rw [numbered.number_enter fresh (trail.frame_open frame member), trail.frame_number frame member]
  have frame_lt (frame : Frame) (member : frame ∈ search.frames) :
      frame.number < (search.enter children id).number id := by
    rw [frame_number frame member]
    exact numbered.number_lt_enter fresh (trail.frame_open frame member)
  have old_lt (other : NodeId) (isOpen : other ∈ search.stack) :
      (search.enter children id).number other < (search.enter children id).number id :=
    numbered.number_lt_enter fresh isOpen
  have old (other : NodeId) (isOpen : other ∈ search.stack) :
      (search.enter children id).number other = search.number other :=
    numbered.number_enter fresh isOpen
  have pending {id' child : NodeId} (waits : search.Pending id' child) :
      (search.enter children id).Pending id' child := by
    obtain ⟨frame, member, holder, remains⟩ := waits
    exact ⟨frame, List.mem_cons_of_mem _ member, holder, remains⟩
  constructor
  case frame_open =>
    intro frame member
    rcases List.mem_cons.1 member with rfl | member
    · exact List.mem_cons_self ..
    · exact List.mem_cons_of_mem _ (trail.frame_open frame member)
  case frame_number =>
    intro frame member
    rcases List.mem_cons.1 member with rfl | member
    · exact number_enter_self.symm
    · exact frame_number frame member
  case frames_sorted =>
    refine List.pairwise_cons.2 ⟨?_, trail.frames_sorted⟩
    intro frame member
    have less := frame_lt frame member
    rwa [number_enter_self] at less
  case remaining_children =>
    intro frame member
    rcases List.mem_cons.1 member with rfl | member
    · exact fun child remains => remains
    · exact trail.remaining_children frame member
  case examined =>
    intro other met child isChild
    rcases mem_numbers_enter.1 met with rfl | met
    · exact Or.inr ⟨_, List.mem_cons_self .., rfl, isChild⟩
    · rcases trail.examined other met child isChild with met | waits
      · exact Or.inl (mem_numbers_enter.2 (Or.inr met))
      · exact Or.inr (pending waits)
  case covered =>
    intro other isOpen
    rcases List.mem_cons.1 isOpen with rfl | isOpen
    · exact ⟨_, List.mem_cons_self .., number_enter_self.ge⟩
    · obtain ⟨frame, member, le⟩ := trail.covered other isOpen
      exact ⟨frame, List.mem_cons_of_mem _ member, le.trans_eq (old other isOpen).symm⟩
  case reached =>
    intro frame member other isOpen le
    rcases List.mem_cons.1 member with rfl | framed <;> rcases List.mem_cons.1 isOpen with rfl | stacked
    · exact .refl
    · have less := old_lt other stacked
      rw [number_enter_self] at less
      exact absurd le (Nat.not_le.2 less)
    · exact leads frame framed
    · exact trail.reached frame framed other stacked (le.trans_eq (old other stacked))
  case returns =>
    intro other isOpen left
    rcases List.mem_cons.1 isOpen with rfl | isOpen
    · exact absurd rfl (left _ (List.mem_cons_self ..))
    · obtain ⟨back, backOpen, less, path⟩ :=
        trail.returns other isOpen fun frame member => left frame (List.mem_cons_of_mem _ member)
      refine ⟨back, List.mem_cons_of_mem _ backOpen, ?_, path⟩
      rwa [old back backOpen, old other isOpen]
  case low_le =>
    intro frame member
    rcases List.mem_cons.1 member with rfl | member
    · exact le_rfl
    · exact trail.low_le frame member
  case low_met =>
    intro frame member
    rcases List.mem_cons.1 member with rfl | member
    · exact ⟨id, List.mem_cons_self .., number_enter_self, .refl⟩
    · obtain ⟨other, isOpen, equal, path⟩ := trail.low_met frame member
      exact ⟨other, List.mem_cons_of_mem _ isOpen, (old other isOpen).trans equal, path⟩
  case low_covers =>
    intro frame member other isOpen child childOpen isChild le settled
    rcases List.mem_cons.1 childOpen with rfl | childOpen
    · -- The new node has the greatest number of all.
      refine ⟨frame, member, le_rfl, ?_⟩
      rcases List.mem_cons.1 member with rfl | member
      · exact number_enter_self.ge
      · exact (trail.low_le frame member).trans (frame_lt frame member).le
    · rcases List.mem_cons.1 isOpen with rfl | isOpen
      · exact absurd ⟨_, List.mem_cons_self .., rfl, isChild⟩ settled
      · rcases List.mem_cons.1 member with rfl | member
        · have less := old_lt other isOpen
          rw [number_enter_self] at less
          exact absurd le (Nat.not_le.2 less)
        · rw [old other isOpen] at le
          obtain ⟨inner, innerMember, above, low⟩ :=
            trail.low_covers frame member other isOpen child childOpen isChild le fun waits => settled (pending waits)
          exact ⟨inner, List.mem_cons_of_mem _ innerMember, above, low.trans_eq (old child childOpen).symm⟩

theorem Invariant.enter (invariant : Invariant children known search) (fresh : id ∈ search.unseen)
    (leads : ∀ frame ∈ search.frames, ReflTransGen (Leads children) frame.id id) :
    Invariant children known (search.enter children id) where
  numbered := invariant.numbered.enter fresh
  trail := invariant.trail.enter invariant.numbered fresh leads
  settled := { invariant.settled with }

end Enter

/-! ## Adjusting a frame -/

theorem Trail.adjust (trail : Trail children search) (above : List Frame) {frame : Frame} (changed : Frame)
    {below : List Frame} (split : search.frames = above ++ frame :: below) (same_id : changed.id = frame.id)
    (same_number : changed.number = frame.number) (lowered : changed.low ≤ frame.low)
    (low_met : ∃ id ∈ search.stack, search.number id = changed.low ∧ ReflTransGen (Leads children) frame.id id)
    (remaining : ∀ child ∈ changed.remaining, child ∈ frame.remaining)
    (looked : ∀ child ∈ frame.remaining, child ∉ changed.remaining → child ∈ search.numbers ∧
      (child ∈ search.stack → ∃ inner ∈ above ++ changed :: below,
        frame.number ≤ inner.number ∧ inner.low ≤ search.number child)) :
    Trail children { search with frames := above ++ changed :: below } := by
  have before (later : Frame) (member : later ∈ above ++ changed :: below) :
      later ∈ search.frames ∨ later = changed := by
    rw [split]
    simp only [List.mem_append, List.mem_cons] at member ⊢
    tauto
  have after (earlier : Frame) (member : earlier ∈ search.frames) :
      earlier ∈ above ++ changed :: below ∨ earlier = frame := by
    rw [split] at member
    simp only [List.mem_append, List.mem_cons] at member ⊢
    tauto
  have member : frame ∈ search.frames := by simp [split]
  have placed : changed ∈ above ++ changed :: below := by simp
  constructor
  case frame_open =>
    intro later inside
    rcases before later inside with old | rfl
    · exact trail.frame_open later old
    · exact same_id ▸ trail.frame_open frame member
  case frame_number =>
    intro later inside
    rcases before later inside with old | rfl
    · exact trail.frame_number later old
    · rw [same_number, same_id]
      exact trail.frame_number frame member
  case frames_sorted =>
    have sorted := trail.frames_sorted
    rw [split] at sorted
    simp only [List.pairwise_append, List.pairwise_cons, List.mem_cons, forall_eq_or_imp] at sorted ⊢
    rw [same_number]
    exact sorted
  case remaining_children =>
    intro later inside
    rcases before later inside with old | rfl
    · exact trail.remaining_children later old
    · rw [same_id]
      exact fun child remains => trail.remaining_children frame member child (remaining child remains)
  case examined =>
    intro id met child isChild
    rcases trail.examined id met child isChild with childMet | ⟨earlier, old, holder, waits⟩
    · exact Or.inl childMet
    · rcases after earlier old with kept | rfl
      · exact Or.inr ⟨earlier, kept, holder, waits⟩
      · by_cases remains : child ∈ changed.remaining
        · exact Or.inr ⟨changed, placed, same_id.trans holder, remains⟩
        · exact Or.inl (looked child waits remains).1
  case covered =>
    intro id isOpen
    obtain ⟨earlier, old, le⟩ := trail.covered id isOpen
    rcases after earlier old with kept | rfl
    · exact ⟨earlier, kept, le⟩
    · exact ⟨changed, placed, same_number.le.trans le⟩
  case reached =>
    intro later inside id isOpen le
    rcases before later inside with old | rfl
    · exact trail.reached later old id isOpen le
    · rw [same_id]
      exact trail.reached frame member id isOpen (same_number ▸ le)
  case returns =>
    intro id isOpen left
    refine trail.returns id isOpen fun earlier old => ?_
    rcases after earlier old with kept | rfl
    · exact left earlier kept
    · exact same_id ▸ left changed placed
  case low_le =>
    intro later inside
    rcases before later inside with old | rfl
    · exact trail.low_le later old
    · rw [same_number]
      exact lowered.trans (trail.low_le frame member)
  case low_met =>
    intro later inside
    rcases before later inside with old | rfl
    · exact trail.low_met later old
    · rw [same_id]
      exact low_met
  case low_covers =>
    intro later inside id isOpen child childOpen isChild le settled
    have bound : ∃ earlier ∈ search.frames, earlier.number = later.number := by
      rcases before later inside with old | rfl
      · exact ⟨later, old, rfl⟩
      · exact ⟨frame, member, same_number.symm⟩
    obtain ⟨earlier, old, equal⟩ := bound
    by_cases waits : search.Pending id child
    · obtain ⟨holding, held, holder, remains⟩ := waits
      rcases after holding held with kept | rfl
      · exact absurd ⟨holding, kept, holder, remains⟩ settled
      · have forgotten : child ∉ changed.remaining :=
          fun still => settled ⟨changed, placed, same_id.trans holder, still⟩
        obtain ⟨inner, placedInner, above, low⟩ := (looked child remains forgotten).2 childOpen
        refine ⟨inner, placedInner, le.trans ?_, low⟩
        rw [← holder]
        exact (trail.frame_number holding held).symm.le.trans above
    · obtain ⟨inner, innerOld, above, low⟩ :=
        trail.low_covers earlier old id isOpen child childOpen isChild (equal.le.trans le) waits
      rcases after inner innerOld with kept | rfl
      · exact ⟨inner, kept, equal.symm.le.trans above, low⟩
      · exact ⟨changed, placed, (equal.symm.le.trans above).trans same_number.symm.le, lowered.trans low⟩

/-! ## Leaving a node whose component stays open -/

theorem Trail.pop (trail : Trail children search) {frame parent : Frame} {below : List Frame}
    (split : search.frames = frame :: parent :: below) (looked : frame.remaining = [])
    (lower : frame.low < frame.number) (propagated : parent.low ≤ frame.low) :
    Trail children { search with frames := parent :: below } := by
  have top : frame ∈ search.frames := by simp [split]
  have keep (later : Frame) (member : later ∈ parent :: below) : later ∈ search.frames := by
    rw [split]
    exact List.mem_cons_of_mem _ member
  have after (earlier : Frame) (member : earlier ∈ search.frames) : earlier ∈ parent :: below ∨ earlier = frame := by
    rw [split] at member
    exact (List.mem_cons.1 member).symm
  have sorted := trail.frames_sorted
  rw [split] at sorted
  obtain ⟨topSorted, sorted⟩ := List.pairwise_cons.1 sorted
  have parent_lt : parent.number < frame.number := topSorted parent (List.mem_cons_self ..)
  have le_parent (later : Frame) (member : later ∈ parent :: below) : later.number ≤ parent.number := by
    rcases List.mem_cons.1 member with rfl | inside
    · exact le_rfl
    · exact ((List.pairwise_cons.1 sorted).1 later inside).le
  have still {id child : NodeId} (waits : search.Pending id child) :
      Pending { search with frames := parent :: below } id child :=
    pending_of_below split looked rfl waits
  constructor
  case frame_open => exact fun later member => trail.frame_open later (keep later member)
  case frame_number => exact fun later member => trail.frame_number later (keep later member)
  case frames_sorted => exact sorted
  case remaining_children => exact fun later member => trail.remaining_children later (keep later member)
  case examined => exact fun id met child isChild => (trail.examined id met child isChild).imp_right still
  case covered =>
    intro id isOpen
    obtain ⟨earlier, old, le⟩ := trail.covered id isOpen
    rcases after earlier old with kept | rfl
    · exact ⟨earlier, kept, le⟩
    · exact ⟨parent, List.mem_cons_self .., parent_lt.le.trans le⟩
  case reached => exact fun later member => trail.reached later (keep later member)
  case returns =>
    intro id isOpen left
    by_cases same : frame.id = id
    · obtain ⟨other, otherOpen, equal, path⟩ := trail.low_met frame top
      refine ⟨other, otherOpen, ?_, same ▸ path⟩
      rw [← same]
      exact (equal.trans_lt lower).trans_eq (trail.frame_number frame top)
    · refine trail.returns id isOpen fun earlier old => ?_
      rcases after earlier old with kept | rfl
      · exact left earlier kept
      · exact same
  case low_le => exact fun later member => trail.low_le later (keep later member)
  case low_met => exact fun later member => trail.low_met later (keep later member)
  case low_covers =>
    intro later member id isOpen child childOpen isChild le settled
    obtain ⟨inner, old, above, low⟩ := trail.low_covers later (keep later member) id isOpen child childOpen isChild le
      fun waits => settled (still waits)
    rcases after inner old with kept | rfl
    · exact ⟨inner, kept, above, low⟩
    · exact ⟨parent, List.mem_cons_self .., le_parent later member, propagated.trans low⟩

/-! ## Completing a component -/

section Complete

theorem split_at_first {first : NodeId} {later : List NodeId} (earlier : List NodeId) (absent : first ∉ later) :
    (later ++ first :: earlier).takeWhile (· ≠ first) = later ∧
      ((later ++ first :: earlier).dropWhile (· ≠ first)).tail = earlier := by
  induction later with
  | nil => simp
  | cons id later ih =>
      rw [List.mem_cons, not_or] at absent
      obtain ⟨different, absent⟩ := absent
      simpa [Ne.symm different] using ih absent

theorem getElem?_foldl_insert {first : NodeId} {members : List NodeId} {table : Std.TreeMap NodeId NodeId}
    {id : NodeId} :
    (members.foldl (fun table id => table.insert id first) table)[id]? =
      if id ∈ members then some first else table[id]? := by
  induction members generalizing table with
  | nil => simp
  | cons member members ih =>
      rw [List.foldl_cons, ih, Std.TreeMap.getElem?_insert]
      by_cases inside : id ∈ members
      · simp [inside]
      · simp [inside, eq_comm (a := id)]

variable {frame : Frame} {below : List Frame}

theorem Trail.not_pending (trail : Trail children search) (split : search.frames = frame :: below)
    (looked : frame.remaining = []) {id child : NodeId} (le : frame.number ≤ search.number id) :
    ¬ search.Pending id child := by
  rintro ⟨holding, held, rfl, remains⟩
  rw [← trail.frame_number holding held] at le
  rw [trail.eq_top split held le, looked] at remains
  exact List.not_mem_nil remains

theorem Invariant.edge_stays (invariant : Invariant children known search) (split : search.frames = frame :: below)
    (looked : frame.remaining = []) (root : frame.low = frame.number) {id child : NodeId}
    (isOpen : id ∈ search.stack) (le : frame.number ≤ search.number id) (isChild : child ∈ children id) :
    (child ∈ search.stack ∧ frame.number ≤ search.number child) ∨ child ∈ search.representatives := by
  have trail := invariant.trail
  have settled : ¬ search.Pending id child := trail.not_pending split looked le
  have met := (trail.examined id (invariant.numbered.met_of_open isOpen) child isChild).resolve_right settled
  refine ((invariant.numbered.met_iff child).1 met).imp_left fun childOpen => ⟨childOpen, ?_⟩
  obtain ⟨inner, member, above, low⟩ :=
    trail.low_covers frame (by simp [split]) id isOpen child childOpen isChild le settled
  rw [trail.eq_top split member above, root] at low
  exact low

theorem Invariant.path_stays (invariant : Invariant children known search) (split : search.frames = frame :: below)
    (looked : frame.remaining = []) (root : frame.low = frame.number) {id other : NodeId}
    (isOpen : id ∈ search.stack) (le : frame.number ≤ search.number id)
    (path : ReflTransGen (Leads children) id other) :
    (other ∈ search.stack ∧ frame.number ≤ search.number other) ∨ other ∈ search.representatives := by
  induction path with
  | refl => exact Or.inl ⟨isOpen, le⟩
  | tail _ edge ih =>
      rcases ih with ⟨midOpen, midLe⟩ | settled
      · exact invariant.edge_stays split looked root midOpen midLe edge
      · exact Or.inr (invariant.settled.closed _ settled _ edge)

theorem Invariant.leads_back (invariant : Invariant children known search) (split : search.frames = frame :: below)
    (looked : frame.remaining = []) (root : frame.low = frame.number) (id : NodeId)
    (isOpen : id ∈ search.stack) (le : frame.number ≤ search.number id) :
    ReflTransGen (Leads children) id frame.id := by
  by_cases same : frame.id = id
  · exact same ▸ .refl
  have trail := invariant.trail
  have left : ∀ holding ∈ search.frames, holding.id ≠ id := by
    intro holding held equal
    rw [← equal, ← trail.frame_number holding held] at le
    rw [trail.eq_top split held le] at equal
    exact same equal
  obtain ⟨other, otherOpen, less, path⟩ := trail.returns id isOpen left
  rcases invariant.path_stays split looked root isOpen le path with ⟨_, otherLe⟩ | settled
  · exact path.trans (invariant.leads_back split looked root other otherOpen otherLe)
  · exact absurd settled (invariant.numbered.not_both other otherOpen)
termination_by search.number id

structure Completion (search : Search) (frame : Frame) (below : List Frame) (members : List NodeId) (next : Search) :
    Prop where
  members_head : members.head? = some frame.id
  members_nodup : members.Nodup
  mem_members : ∀ id, id ∈ members ↔ id ∈ search.stack ∧ frame.number ≤ search.number id
  mem_stack : ∀ id, id ∈ next.stack ↔ id ∈ search.stack ∧ search.number id < frame.number
  stack_sublist : next.stack.Sublist search.stack
  lookup : ∀ id : NodeId, next.representatives[id]? =
    if id ∈ members then some frame.id else search.representatives[id]?
  listed : next.completedReversed = (frame.id, members) :: search.completedReversed
  unseen : next.unseen = search.unseen
  numbers : next.numbers = search.numbers
  frames : next.frames = below

theorem Invariant.completion (invariant : Invariant children known search) (split : search.frames = frame :: below) :
    ∃ members, Completion search frame below members ({ search with frames := below }.complete frame.id) := by
  have number : frame.number = search.number frame.id := invariant.trail.frame_number frame (by simp [split])
  obtain ⟨later, earlier, stack, absent⟩ :=
    List.eq_append_cons_of_mem (invariant.trail.frame_open frame (by simp [split]))
  obtain ⟨take, drop⟩ := split_at_first earlier absent
  have sorted := invariant.numbered.stack_sorted
  rw [stack] at sorted
  obtain ⟨later_sorted, rest_sorted, across⟩ := List.pairwise_append.1 sorted
  have earlier_lt (id : NodeId) (member : id ∈ earlier) : search.number id < frame.number := by
    rw [number]
    exact (List.pairwise_cons.1 rest_sorted).1 id member
  have later_lt (id : NodeId) (member : id ∈ later) : frame.number < search.number id := by
    rw [number]
    exact across id member frame.id (List.mem_cons_self ..)
  refine ⟨frame.id :: later.reverse, ?_⟩
  constructor
  case members_head => rfl
  case members_nodup =>
    refine List.nodup_cons.2 ⟨fun inside => absent (List.mem_reverse.1 inside), ?_⟩
    exact List.pairwise_reverse.2 (later_sorted.imp fun less same => less.ne (congrArg search.number same))
  case mem_members =>
    intro id
    simp only [stack, List.mem_cons, List.mem_reverse, List.mem_append]
    constructor
    · rintro (rfl | inside)
      · exact ⟨Or.inr (Or.inl rfl), number.le⟩
      · exact ⟨Or.inl inside, (later_lt id inside).le⟩
    · rintro ⟨inside | rfl | inside, le⟩
      · exact Or.inr inside
      · exact Or.inl rfl
      · exact absurd le (Nat.not_le.2 (earlier_lt id inside))
  case mem_stack =>
    intro id
    simp only [Search.complete, stack, drop, List.mem_append, List.mem_cons]
    constructor
    · exact fun inside => ⟨Or.inr (Or.inr inside), earlier_lt id inside⟩
    · rintro ⟨inside | rfl | inside, less⟩
      · exact absurd less (Nat.not_lt.2 (later_lt id inside).le)
      · exact absurd number less.ne'
      · exact inside
  case stack_sublist =>
    simp only [Search.complete, stack, drop]
    exact (List.sublist_cons_self _ _).trans (List.sublist_append_right _ _)
  case lookup =>
    intro id
    simp only [Search.complete, stack, take]
    exact getElem?_foldl_insert
  case listed => simp only [Search.complete, stack, take]
  case unseen => rfl
  case numbers => rfl
  case frames => rfl

theorem Completion.represented {members : List NodeId} {next : Search}
    (completion : Completion search frame below members next) (id : NodeId) :
    id ∈ next.representatives ↔ id ∈ members ∨ id ∈ search.representatives := by
  rw [Std.TreeMap.mem_iff_isSome_getElem?, completion.lookup, Std.TreeMap.mem_iff_isSome_getElem?]
  by_cases inside : id ∈ members <;> simp [inside]

theorem Completion.number {members : List NodeId} {next : Search}
    (completion : Completion search frame below members next) (id : NodeId) : next.number id = search.number id := by
  rw [Search.number, completion.numbers, Search.number]

theorem Numbered.complete {members : List NodeId} {next : Search} (numbered : Numbered known search)
    (completion : Completion search frame below members next) : Numbered known next where
  unseen_iff := by
    rw [completion.unseen, completion.numbers]
    exact numbered.unseen_iff
  known_of_met := by
    rw [completion.numbers]
    exact numbered.known_of_met
  met_iff id := by
    rw [completion.numbers, completion.mem_stack, completion.represented, completion.mem_members, numbered.met_iff]
    have either := lt_or_ge (search.number id) frame.number
    tauto
  not_both id isOpen settled := by
    obtain ⟨wasOpen, less⟩ := (completion.mem_stack id).1 isOpen
    rcases (completion.represented id).1 settled with inside | settled
    · exact absurd less (Nat.not_lt.2 ((completion.mem_members id).1 inside).2)
    · exact numbered.not_both id wasOpen settled
  number_lt id met := by
    rw [completion.number, completion.numbers]
    exact numbered.number_lt id (completion.numbers ▸ met)
  stack_sorted := by
    simp only [completion.number]
    exact numbered.stack_sorted.sublist completion.stack_sublist

theorem Trail.complete {members : List NodeId} {next : Search} (trail : Trail children search)
    (split : search.frames = frame :: below) (looked : frame.remaining = []) (root : frame.low = frame.number)
    (completion : Completion search frame below members next) : Trail children next := by
  have keep (later : Frame) (member : later ∈ next.frames) : later ∈ search.frames := by
    rw [completion.frames] at member
    simp [split, member]
  have after (earlier : Frame) (member : earlier ∈ search.frames) : earlier ∈ next.frames ∨ earlier = frame := by
    rw [split] at member
    rw [completion.frames]
    exact (List.mem_cons.1 member).symm
  have sorted := trail.frames_sorted
  rw [split] at sorted
  obtain ⟨below_lt, sorted⟩ := List.pairwise_cons.1 sorted
  rw [← completion.frames] at below_lt sorted
  have was_open (id : NodeId) (isOpen : id ∈ next.stack) : id ∈ search.stack := ((completion.mem_stack id).1 isOpen).1
  have less (id : NodeId) (isOpen : id ∈ next.stack) : search.number id < frame.number :=
    ((completion.mem_stack id).1 isOpen).2
  have still {id child : NodeId} (waits : search.Pending id child) : next.Pending id child :=
    pending_of_below split looked completion.frames waits
  constructor
  case frame_open =>
    intro later member
    refine (completion.mem_stack later.id).2 ⟨trail.frame_open later (keep later member), ?_⟩
    rw [← trail.frame_number later (keep later member)]
    exact below_lt later member
  case frame_number =>
    intro later member
    rw [completion.number]
    exact trail.frame_number later (keep later member)
  case frames_sorted => exact sorted
  case remaining_children => exact fun later member => trail.remaining_children later (keep later member)
  case examined =>
    rw [completion.numbers]
    exact fun id met child isChild => (trail.examined id met child isChild).imp_right still
  case covered =>
    intro id isOpen
    rw [completion.number]
    obtain ⟨earlier, old, le⟩ := trail.covered id (was_open id isOpen)
    rcases after earlier old with kept | rfl
    · exact ⟨earlier, kept, le⟩
    · exact absurd le (Nat.not_le.2 (less id isOpen))
  case reached =>
    intro later member id isOpen le
    rw [completion.number] at le
    exact trail.reached later (keep later member) id (was_open id isOpen) le
  case returns =>
    intro id isOpen left
    obtain ⟨other, otherOpen, lower, path⟩ := trail.returns id (was_open id isOpen) <| by
      intro earlier old
      rcases after earlier old with kept | rfl
      · exact left earlier kept
      · rintro rfl
        exact absurd (trail.frame_number earlier old) (less earlier.id isOpen).ne'
    refine ⟨other, (completion.mem_stack other).2 ⟨otherOpen, lower.trans (less id isOpen)⟩, ?_, path⟩
    rwa [completion.number, completion.number]
  case low_le => exact fun later member => trail.low_le later (keep later member)
  case low_met =>
    intro later member
    obtain ⟨id, isOpen, equal, path⟩ := trail.low_met later (keep later member)
    refine ⟨id, (completion.mem_stack id).2 ⟨isOpen, ?_⟩, (completion.number id).trans equal, path⟩
    rw [equal]
    exact (trail.low_le later (keep later member)).trans_lt (below_lt later member)
  case low_covers =>
    intro later member id isOpen child childOpen isChild le settled
    rw [completion.number] at le ⊢
    obtain ⟨inner, old, above, low⟩ := trail.low_covers later (keep later member) id (was_open id isOpen) child
      (was_open child childOpen) isChild le fun waits => settled (still waits)
    rcases after inner old with kept | rfl
    · exact ⟨inner, kept, above, low⟩
    · rw [root] at low
      exact absurd low (Nat.not_le.2 (less child childOpen))

theorem Settled.complete {members : List NodeId} {next : Search} (invariant : Invariant children known search)
    (split : search.frames = frame :: below) (looked : frame.remaining = []) (root : frame.low = frame.number)
    (completion : Completion search frame below members next) : Settled children next := by
  have settled := invariant.settled
  have top : frame ∈ search.frames := by simp [split]
  have out (id : NodeId) (inside : id ∈ members) : ReflTransGen (Leads children) frame.id id := by
    obtain ⟨isOpen, le⟩ := (completion.mem_members id).1 inside
    exact invariant.trail.reached frame top id isOpen le
  have back (id : NodeId) (inside : id ∈ members) : ReflTransGen (Leads children) id frame.id := by
    obtain ⟨isOpen, le⟩ := (completion.mem_members id).1 inside
    exact invariant.leads_back split looked root id isOpen le
  have stays {id other : NodeId} (inside : id ∈ members) (path : ReflTransGen (Leads children) id other) :
      other ∈ members ∨ other ∈ search.representatives := by
    obtain ⟨isOpen, le⟩ := (completion.mem_members id).1 inside
    exact (invariant.path_stays split looked root isOpen le path).imp_left (completion.mem_members other).2
  have closed {id other : NodeId} (done : id ∈ search.representatives) (path : ReflTransGen (Leads children) id other) :
      other ∈ search.representatives := by
    induction path with
    | refl => exact done
    | tail _ edge ih => exact settled.closed _ ih _ edge
  have apart (id : NodeId) (inside : id ∈ members) : id ∉ search.representatives :=
    invariant.numbered.not_both id ((completion.mem_members id).1 inside).1
  constructor
  case closed =>
    intro id done child isChild
    refine (completion.represented child).2 ?_
    rcases (completion.represented id).1 done with inside | done
    · exact stays inside (.single isChild)
    · exact Or.inr (settled.closed id done child isChild)
  case together =>
    intro id representative found
    rw [completion.lookup] at found
    split at found
    · rename_i inside
      obtain rfl := Option.some.inj found
      exact ⟨back id inside, out id inside⟩
    · exact settled.together id representative found
  case same =>
    intro id done other otherDone path backPath
    rw [completion.lookup, completion.lookup]
    rcases (completion.represented id).1 done with inside | old
    · have otherInside : other ∈ members :=
        (stays inside path).resolve_right fun settledOther => apart id inside (closed settledOther backPath)
      rw [if_pos inside, if_pos otherInside]
    · have otherOld := closed old path
      rw [if_neg fun inside => apart id inside old, if_neg fun inside => apart other inside otherOld]
      exact settled.same id old other otherOld path backPath
  case listed =>
    intro id representative found
    rw [completion.lookup] at found
    rw [completion.listed]
    split at found
    · obtain rfl := Option.some.inj found
      exact ⟨members, List.mem_cons_self ..⟩
    · obtain ⟨others, member⟩ := settled.listed id representative found
      exact ⟨others, List.mem_cons_of_mem _ member⟩
  case members_iff =>
    intro part member id
    rw [completion.listed] at member
    rw [completion.lookup]
    rcases List.mem_cons.1 member with rfl | old
    · by_cases inside : id ∈ members
      · simp [inside]
      · simp only [inside, if_false, false_iff]
        intro found
        -- A member of an older component cannot have the new representative.
        obtain ⟨path, _⟩ := settled.together id frame.id found
        exact apart frame.id (List.mem_of_head? completion.members_head) (closed (mem_of_getElem? found) path)
    · rw [settled.members_iff part old id]
      by_cases inside : id ∈ members
      · rw [if_pos inside]
        constructor
        · exact fun found => absurd (mem_of_getElem? found) (apart id inside)
        · intro equal
          have found := (settled.members_iff part old part.1).1 (List.mem_of_head? (settled.members_head part old))
          rw [← Option.some.inj equal] at found
          exact absurd (mem_of_getElem? found) (apart frame.id (List.mem_of_head? completion.members_head))
      · rw [if_neg inside]
  case members_nodup =>
    rw [completion.listed]
    intro part member
    rcases List.mem_cons.1 member with rfl | old
    · exact completion.members_nodup
    · exact settled.members_nodup part old
  case members_head =>
    rw [completion.listed]
    intro part member
    rcases List.mem_cons.1 member with rfl | old
    · exact completion.members_head
    · exact settled.members_head part old
  case ordered =>
    rw [completion.listed]
    refine List.pairwise_cons.2 ⟨?_, settled.ordered⟩
    intro part old id inside other otherInside path
    exact apart id inside (closed (mem_of_getElem? ((settled.members_iff part old other).1 otherInside)) path)

theorem Invariant.complete (invariant : Invariant children known search) (split : search.frames = frame :: below)
    (looked : frame.remaining = []) (root : frame.low = frame.number) :
    Invariant children known ({ search with frames := below }.complete frame.id) := by
  obtain ⟨members, completion⟩ := invariant.completion split
  exact ⟨invariant.numbered.complete completion, invariant.trail.complete split looked root completion,
    Settled.complete invariant split looked root completion⟩

end Complete

/-! ## Steps and runs -/

theorem Invariant.counted (invariant : Invariant children known search) (steps : Nat) :
    Invariant children known { search with steps } where
  numbered := { invariant.numbered with }
  trail := { invariant.trail with }
  settled := { invariant.settled with }

theorem Invariant.adjust (invariant : Invariant children known search) {frames : List Frame}
    (trail : Trail children { search with frames }) : Invariant children known { search with frames } where
  numbered := { invariant.numbered with }
  trail := trail
  settled := { invariant.settled with }

theorem Invariant.leave (invariant : Invariant children known search) {frame : Frame} {below : List Frame}
    (split : search.frames = frame :: below) (looked : frame.remaining = []) :
    Invariant children known (search.leave frame below) := by
  have trail := invariant.trail
  have top : frame ∈ search.frames := by simp [split]
  unfold Search.leave
  split
  · rename_i root
    -- The frame below has a lower low already.
    have unchanged : lower frame.low below = below := by
      cases below with
      | nil => rfl
      | cons parent below =>
          have parent_le := trail.low_le parent (by simp [split])
          have less := trail.below_lt split (List.mem_cons_self ..)
          have least : min parent.low frame.low = parent.low := by omega
          simp only [lower, least]
    rw [unchanged]
    exact invariant.complete split looked root
  · rename_i notRoot
    have less : frame.low < frame.number := lt_of_le_of_ne (trail.low_le frame top) notRoot
    obtain ⟨id, isOpen, equal, path⟩ := trail.low_met frame top
    cases below with
    | nil =>
        obtain ⟨only, member, le⟩ := trail.covered id isOpen
        rw [split, List.mem_singleton] at member
        subst member
        omega
    | cons parent below =>
        have parentTop : parent ∈ search.frames := by simp [split]
        have parentPath : ReflTransGen (Leads children) parent.id frame.id := by
          refine trail.reached parent parentTop frame.id (trail.frame_open frame top) ?_
          rw [← trail.frame_number frame top]
          exact (trail.below_lt split (List.mem_cons_self ..)).le
        have adjusted := invariant.adjust <| trail.adjust [frame]
          { parent with low := min parent.low frame.low } split rfl rfl (Nat.min_le_left ..)
          (by
            rcases Nat.le_total parent.low frame.low with le | le
            · rw [Nat.min_eq_left le]
              exact trail.low_met parent parentTop
            · rw [Nat.min_eq_right le]
              exact ⟨id, isOpen, equal, parentPath.trans path⟩)
          (fun child remains => remains) (fun child remains gone => absurd remains gone)
        exact adjusted.adjust (adjusted.trail.pop rfl looked less (Nat.min_le_right ..))

theorem step_cases {next : Search} (moved : search.step children = some next) :
    ∃ frame below, search.frames = frame :: below ∧
      ((frame.remaining = [] ∧ next = { search with steps := search.steps + 1 }.leave frame below) ∨
        ∃ child rest, frame.remaining = child :: rest ∧
          ((child ∈ search.unseen ∧ next = { search with
              steps := search.steps + 1
              frames := { frame with remaining := rest } :: below }.enter children child) ∨
          (child ∉ search.unseen ∧ ∃ number, search.numbers[child]? = some number ∧
            search.representatives[child]? = none ∧ next = { search with
              steps := search.steps + 1
              frames := { frame with remaining := rest, low := min frame.low number } :: below }) ∨
          (child ∉ search.unseen ∧ (search.numbers[child]? = none ∨ search.representatives[child]? ≠ none) ∧
            next = { search with
              steps := search.steps + 1
              frames := { frame with remaining := rest } :: below }))) := by
  unfold Search.step at moved
  cases frames : search.frames with
  | nil =>
      rw [frames] at moved
      cases moved
  | cons frame below =>
      rw [frames] at moved
      refine ⟨frame, below, rfl, ?_⟩
      cases remaining : frame.remaining with
      | nil =>
          simp only [remaining, Option.some.injEq] at moved
          exact Or.inl ⟨rfl, moved.symm⟩
      | cons child rest =>
          simp only [remaining, Option.some.injEq] at moved
          refine Or.inr ⟨child, rest, rfl, ?_⟩
          by_cases fresh : child ∈ search.unseen
          · rw [if_pos fresh] at moved
            exact Or.inl ⟨fresh, moved.symm⟩
          · rw [if_neg fresh] at moved
            refine Or.inr ?_
            cases number : search.numbers[child]? with
            | none =>
                simp only [number] at moved
                exact Or.inr ⟨fresh, Or.inl rfl, moved.symm⟩
            | some found =>
                cases representative : search.representatives[child]? with
                | none =>
                    simp only [number, representative] at moved
                    exact Or.inl ⟨fresh, found, rfl, rfl, moved.symm⟩
                | some other =>
                    simp only [number, representative] at moved
                    exact Or.inr ⟨fresh, Or.inr nofun, moved.symm⟩

theorem Invariant.look (invariant : Invariant children known search) {frame : Frame} {below : List Frame}
    (split : search.frames = frame :: below) {child : NodeId} {rest : List NodeId}
    (remaining : frame.remaining = child :: rest) (low : Nat) (lowered : low ≤ frame.low)
    (met : child ∈ search.numbers)
    (low_met : ∃ id ∈ search.stack, search.number id = low ∧ ReflTransGen (Leads children) frame.id id)
    (low_le : child ∈ search.stack → low ≤ search.number child) :
    Invariant children known { search with frames := { frame with remaining := rest, low } :: below } := by
  refine invariant.adjust ?_
  refine invariant.trail.adjust [] { frame with remaining := rest, low } split rfl rfl lowered low_met ?_ ?_
  · rw [remaining]
    exact fun other => List.mem_cons_of_mem _
  · intro other remains gone
    rw [remaining] at remains
    obtain rfl := (List.mem_cons.1 remains).resolve_right gone
    exact ⟨met, fun isOpen => ⟨_, List.mem_cons_self .., le_rfl, low_le isOpen⟩⟩

theorem Trail.leads_child (trail : Trail children search) {frame : Frame} {below : List Frame}
    (split : search.frames = frame :: below) {child : NodeId} (remains : child ∈ frame.remaining) :
    ∀ holding ∈ search.frames, ReflTransGen (Leads children) holding.id child := by
  have top : frame ∈ search.frames := by simp [split]
  intro holding held
  have le : holding.number ≤ search.number frame.id := by
    rw [← trail.frame_number frame top]
    exact trail.le_top split held
  exact (trail.reached holding held frame.id (trail.frame_open frame top) le).tail
    (trail.remaining_children frame top child remains)

theorem Invariant.enter_child (invariant : Invariant children known search) {frame : Frame} {below : List Frame}
    (split : search.frames = frame :: below) {child : NodeId} {rest : List NodeId}
    (remaining : frame.remaining = child :: rest) (fresh : child ∈ search.unseen) :
    Invariant children known
      ({ search with frames := { frame with remaining := rest } :: below }.enter children child) := by
  have top : frame ∈ search.frames := by simp [split]
  have entered := invariant.enter fresh (invariant.trail.leads_child split (by simp [remaining]))
  let entry : Frame := ⟨child, search.numbers.size, search.numbers.size, children child⟩
  have held : frame ∈ entry :: search.frames := List.mem_cons_of_mem _ top
  have placed : (search.enter children child).frames = [entry] ++ frame :: below := congrArg (entry :: ·) split
  refine entered.adjust <| entered.trail.adjust [entry] { frame with remaining := rest } placed rfl rfl le_rfl
    (entered.trail.low_met frame held) ?_ ?_
  · rw [remaining]
    exact fun other => List.mem_cons_of_mem _
  · intro other remains gone
    rw [remaining] at remains
    obtain rfl := (List.mem_cons.1 remains).resolve_right gone
    have greatest : (search.enter children other).number other = search.numbers.size := number_enter_self
    refine ⟨mem_numbers_enter.2 (Or.inl rfl), fun _ => ⟨entry, List.mem_cons_self .., ?_, greatest.ge⟩⟩
    rw [invariant.trail.frame_number frame top]
    exact (invariant.numbered.number_lt _ (invariant.numbered.met_of_open (invariant.trail.frame_open frame top))).le

theorem Invariant.step (invariant : Invariant children known search)
    (known_child : ∀ id, ∀ child ∈ children id, known child) {next : Search}
    (moved : search.step children = some next) :
    Invariant children known next ∧ ∀ id ∈ search.numbers, id ∈ next.numbers := by
  have counted := invariant.counted (search.steps + 1)
  obtain ⟨frame, below, split, leaves | ⟨child, rest, remaining, examines⟩⟩ := step_cases moved
  · obtain ⟨looked, rfl⟩ := leaves
    refine ⟨counted.leave split looked, ?_⟩
    unfold Search.leave
    split <;> exact fun id met => met
  · have trail := counted.trail
    have top : frame ∈ search.frames := by simp [split]
    have isChild := trail.remaining_children frame top child (by simp [remaining])
    have met (seen : child ∉ search.unseen) : child ∈ search.numbers :=
      counted.numbered.met_of_seen (known_child _ _ isChild) seen
    rcases examines with ⟨fresh, rfl⟩ | ⟨seen, number, found, isOpen, rfl⟩ | ⟨seen, closed, rfl⟩
    · exact ⟨counted.enter_child split remaining fresh, fun id met => mem_numbers_enter.2 (Or.inr met)⟩
    · have number_child : search.number child = number := by
        rw [Search.number, Std.TreeMap.getD_eq_getD_getElem?, found]
        rfl
      have childOpen : child ∈ search.stack := by
        refine ((counted.numbered.met_iff child).1 (met seen)).resolve_right fun done => ?_
        rw [Std.TreeMap.mem_iff_isSome_getElem?, isOpen] at done
        cases done
      refine ⟨counted.look split remaining _ (Nat.min_le_left ..) (met seen) ?_ ?_, fun id met => met⟩
      · rcases Nat.le_total frame.low number with le | le
        · rw [Nat.min_eq_left le]
          exact trail.low_met frame top
        · rw [Nat.min_eq_right le]
          exact ⟨child, childOpen, number_child, trail.leads_child split (by simp [remaining]) frame top⟩
      · exact fun _ => (Nat.min_le_right ..).trans number_child.symm.le
    · have done : child ∈ search.representatives := by
        rcases closed with missing | found
        · have present := met seen
          rw [Std.TreeMap.mem_iff_isSome_getElem?, missing] at present
          cases present
        · rw [Std.TreeMap.mem_iff_isSome_getElem?]
          exact Option.isSome_iff_ne_none.2 found
      exact ⟨counted.look split remaining frame.low le_rfl (met seen) (trail.low_met frame top)
        fun isOpen => absurd done (counted.numbered.not_both child isOpen), fun id met => met⟩

end SupplyGraph.Components.Search
