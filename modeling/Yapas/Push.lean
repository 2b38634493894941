import Mathlib.Data.List.Induction
import Yapas.Actions

/-!
# Pushing tags and labels

`executePushVlan` and `executePushMpls` on a buffer, and what a
sequence of them makes of a frame.

On the bytes behind the two MAC addresses a VLAN push prepends its
word, and an MPLS push cuts at the ethertype whose place `l2_len` was
recorded for (`pushBehind`). Nothing updates `l2_len` afterwards, so
the place is right as long as no VLAN tag has been pushed in between;
after one, the cut falls inside the tags. `TaggedFrame.pushed` is the
frame the pushes are meant to make, and `foldl_pushBehind_iff` says
which sequences make it.
-/

namespace Yapas

/-- `rte_vlan_insert`: four bytes are prepended and the MAC addresses
moved to the front. What it leaves in the four bytes behind them is
overwritten by its caller. -/
def rteVlanInsert (m : Mbuf) : Option Mbuf :=
  (m.prepend 4).map fun m' => m'.overwrite 0 (m.room.take (2 * etherAddrLen))

/-- `ExecutePushVlan`. -/
def executePushVlan (m : Mbuf) (vlanTag : UInt32) : Mbuf :=
  match rteVlanInsert m with
  | none => m
  | some m' => m'.overwrite (6 * 2) (Word.bytes vlanTag)

/-- `ExecutePushMpls`. -/
def executePushMpls (m : Mbuf) (mplsLabel : UInt32) : Mbuf :=
  match m.prepend 4 with
  | none => m
  | some m' =>
      let l2Len := m.l2Len.toNat
      ((m'.overwrite 0 (m.room.take l2Len)).overwrite l2Len (Word.bytes mplsLabel)).overwrite
        (l2Len - 2) [0x88, 0x47]

/-- The action loop's cases that change the packet. -/
def executePush (m : Mbuf) : Action → Mbuf
  | .pushVlan vlanTag => executePushVlan m vlanTag
  | .pushMpls mplsLabel => executePushMpls m mplsLabel
  | _ => m

def pushAll (m : Mbuf) (actions : List Action) : Mbuf :=
  actions.foldl executePush m

/-! ## One push, on a buffer -/

/-- Four bytes prepended and the first `n` moved to the front leave a
gap behind these. -/
theorem overwriteAt_gap (gap : List UInt8) {l : List UInt8} {n : Nat} (hn : n ≤ l.length) :
    ∃ g, g.length = gap.length
      ∧ overwriteAt (gap ++ l) 0 (l.take n) = l.take n ++ g ++ l.drop n := by
  have htake : (l.take n).length = n := by rw [List.length_take, Nat.min_eq_left hn]
  refine ⟨((gap ++ l).drop n).take gap.length, ?_, ?_⟩
  · rw [List.length_take, List.length_drop, List.length_append]
    omega
  · have hdrop : ((gap ++ l).drop n).drop gap.length = l.drop n := by
      rw [List.drop_drop, Nat.add_comm, ← List.drop_drop, List.drop_left]
    rw [overwriteAt_eq (by rw [htake, List.length_append]; omega), List.take_zero,
      List.nil_append, htake, Nat.zero_add, List.append_assoc, ← hdrop, List.take_append_drop]

/-- A push opens a gap of four bytes behind the first `n` and writes its
word there. -/
theorem executePushVlan_spec {m : Mbuf} {macs x : List UInt8} (w : UInt32)
    (hhead : 4 ≤ m.headroom.length) (hmacs : macs.length = 12) (hroom : m.room = macs ++ x) :
    (executePushVlan m w).room = macs ++ (Word.bytes w ++ x)
      ∧ (executePushVlan m w).headroom.length + 4 = m.headroom.length
      ∧ (executePushVlan m w).pktLen = m.pktLen + 4
      ∧ (executePushVlan m w).l2Len = m.l2Len := by
  obtain ⟨m', hm'⟩ := Mbuf.prepend_isSome hhead
  obtain ⟨-, hh, hr, hp, hl⟩ := Mbuf.prepend_spec hm'
  have hgap : (m.headroom.drop (m.headroom.length - 4)).length = 4 := by
    rw [List.length_drop]
    omega
  obtain ⟨g, hg, hopen⟩ := overwriteAt_gap (m.headroom.drop (m.headroom.length - 4))
    (l := m.room) (n := 12) (by rw [hroom, List.length_append]; omega)
  rw [hgap] at hg
  rw [executePushVlan, rteVlanInsert, hm']
  refine ⟨?_, ?_, ?_, ?_⟩
  · simp only [Option.map_some, Mbuf.overwrite_room, etherAddrLen, Nat.reduceMul, hr, hopen]
    rw [hroom, List.take_left' hmacs, List.drop_left' hmacs, ← hmacs,
      overwriteAt_append (by rw [hg, Word.length_bytes]), List.append_assoc]
  · simp only [Option.map_some, Mbuf.overwrite_headroom, hh, List.length_take]
    omega
  · simp only [Option.map_some, Mbuf.overwrite_pktLen, hp, Nat.add_comm]
  · simp only [Option.map_some, Mbuf.overwrite_l2Len, hl]

theorem executePushMpls_spec {m : Mbuf} {front t x : List UInt8} (w : UInt32)
    (hhead : 4 ≤ m.headroom.length) (ht : t.length = 2)
    (hfront : front.length + 2 = m.l2Len.toNat) (hroom : m.room = front ++ t ++ x) :
    (executePushMpls m w).room = front ++ [0x88, 0x47] ++ (Word.bytes w ++ x)
      ∧ (executePushMpls m w).headroom.length + 4 = m.headroom.length
      ∧ (executePushMpls m w).pktLen = m.pktLen + 4
      ∧ (executePushMpls m w).l2Len = m.l2Len := by
  obtain ⟨m', hm'⟩ := Mbuf.prepend_isSome hhead
  obtain ⟨-, hh, hr, hp, hl⟩ := Mbuf.prepend_spec hm'
  have hgap : (m.headroom.drop (m.headroom.length - 4)).length = 4 := by
    rw [List.length_drop]
    omega
  have hft : (front ++ t).length = m.l2Len.toNat := by rw [List.length_append]; omega
  obtain ⟨g, hg, hopen⟩ := overwriteAt_gap (m.headroom.drop (m.headroom.length - 4))
    (l := m.room) (n := m.l2Len.toNat) (by rw [hroom, List.length_append]; omega)
  rw [hgap] at hg
  rw [executePushMpls, hm']
  refine ⟨?_, ?_, ?_, ?_⟩
  · simp only [Mbuf.overwrite_room, hr, hopen]
    rw [hroom, List.take_left' hft, List.drop_left' hft, ← hft,
      overwriteAt_append (by rw [hg, Word.length_bytes]),
      show (front ++ t).length - 2 = front.length by rw [List.length_append]; omega,
      List.append_assoc (front ++ t), overwriteAt_append (by rw [ht]; rfl)]
  · simp only [Mbuf.overwrite_headroom, hh, List.length_take]
    omega
  · simp only [Mbuf.overwrite_pktLen, hp, Nat.add_comm]
  · simp only [Mbuf.overwrite_l2Len, hl]

/-! ## Frames with tags -/

/-- A frame whose tags are set off from its ethertype. Each tag is the
word in memory that starts with a tag type; the ethertype is not one. -/
structure TaggedFrame where
  dst : List UInt8
  src : List UInt8
  tags : List UInt32
  typeHi : UInt8
  typeLo : UInt8
  rest : List UInt8
  length_dst : dst.length = 6
  length_src : src.length = 6
  startsWithTag : ∀ w ∈ tags, StartsWithTag w
  not_vlanType : isVlanType (256 * typeHi.toNat + typeLo.toNat) = false

namespace TaggedFrame

variable (f : TaggedFrame)

def macs : List UInt8 := f.dst ++ f.src

def bytes : List UInt8 :=
  f.macs ++ (f.tags.flatMap Word.bytes ++ ([f.typeHi, f.typeLo] ++ f.rest))

theorem length_macs : f.macs.length = 12 := by
  rw [macs, List.length_append, f.length_dst, f.length_src]

end TaggedFrame

def Action.vlanWord? : Action → Option UInt32
  | .pushVlan w => some w
  | _ => none

def Action.mplsWord? : Action → Option UInt32
  | .pushMpls w => some w
  | _ => none

/-- The words of the VLAN pushes, in order of execution. -/
def vlanWords (actions : List Action) : List UInt32 :=
  actions.filterMap Action.vlanWord?

def mplsWords (actions : List Action) : List UInt32 :=
  actions.filterMap Action.mplsWord?

namespace TaggedFrame

/-- The frame the pushes of `actions` are meant to make, behind its
MAC addresses: the new tags and the old, the ethertype, the labels. -/
def pushedBehind (f : TaggedFrame) (actions : List Action) : List UInt8 :=
  ((vlanWords actions).reverse ++ f.tags).flatMap Word.bytes
    ++ ((if mplsWords actions = [] then [f.typeHi, f.typeLo] else [0x88, 0x47])
      ++ ((mplsWords actions).reverse.flatMap Word.bytes ++ f.rest))

def pushed (f : TaggedFrame) (actions : List Action) : List UInt8 :=
  f.macs ++ f.pushedBehind actions

end TaggedFrame

/-- No label is pushed after a tag. -/
def LabelsFirst (actions : List Action) : Prop :=
  actions.Pairwise fun a b => a.vlanWord? = none ∨ b.mplsWord? = none

instance (actions : List Action) : Decidable (LabelsFirst actions) :=
  inferInstanceAs (Decidable (actions.Pairwise _))

theorem length_flatMap_bytes : ∀ ws : List UInt32,
    (ws.flatMap Word.bytes).length = 4 * ws.length
  | [] => rfl
  | w :: ws => by
      rw [List.flatMap_cons, List.length_append, Word.length_bytes, length_flatMap_bytes ws,
        List.length_cons]
      omega

/-- The header walk counts the words that start with a tag type. -/
theorem vlanTags_flatMap : ∀ {ws : List UInt32} (a b : UInt8) (rest : List UInt8),
    (∀ w ∈ ws, StartsWithTag w) → isVlanType (256 * a.toNat + b.toNat) = false →
    vlanTags (ws.flatMap Word.bytes ++ ([a, b] ++ rest)) = ws.length
  | [], a, b, rest, _, hab => by
      match rest with
      | [] | [_] => rfl
      | _ :: _ :: _ => simp [vlanTags, hab]
  | w :: ws, a, b, rest, hws, hab => by
      obtain ⟨b0, b1, b2, b3, hw, htag⟩ := hws w (by simp)
      have ih : vlanTags (ws.flatMap Word.bytes ++ ([a, b] ++ rest)) = ws.length :=
        vlanTags_flatMap a b rest (fun v hv => hws v (by simp [hv])) hab
      rw [List.flatMap_cons, hw]
      simp only [List.cons_append, List.nil_append] at ih ⊢
      rw [vlanTags, if_pos htag, ih, List.length_cons]

/-! ## A sequence of pushes, on bytes -/

/-- One action on the bytes behind the MAC addresses; `k` is the number
of tags `l2_len` was recorded for. -/
def pushBehind (k : Nat) (x : List UInt8) : Action → List UInt8
  | .pushVlan w => Word.bytes w ++ x
  | .pushMpls w => x.take (4 * k) ++ [0x88, 0x47] ++ (Word.bytes w ++ x.drop (4 * k + 2))
  | _ => x

theorem length_pushBehind {k : Nat} {x : List UInt8} (a : Action)
    (hx : 4 * k + 2 ≤ x.length) :
    (pushBehind k x a).length = x.length + if a.isPush then 4 else 0 := by
  cases a with
  | drop | output _ => rfl
  | pushVlan w =>
      rw [pushBehind, List.length_append, Word.length_bytes, Nat.add_comm]
      rfl
  | pushMpls w =>
      simp only [pushBehind, List.length_append, List.length_take, List.length_drop,
        Word.length_bytes, List.length_cons, List.length_nil, Action.isPush, if_true]
      omega

/-- What is left of the headroom is enough for the pushes left. -/
theorem executePush_data {m : Mbuf} {macs x : List UInt8} {k : Nat} (a : Action)
    (hmacs : macs.length = 12) (hl2 : m.l2Len.toNat = 14 + 4 * k)
    (hx : 4 * k + 2 ≤ x.length) (hdata : m.data = macs ++ x)
    (hhead : (if a.isPush then 4 else 0) ≤ m.headroom.length) :
    (executePush m a).data = macs ++ pushBehind k x a
      ∧ (executePush m a).l2Len.toNat = 14 + 4 * k
      ∧ (executePush m a).headroom.length + (if a.isPush then 4 else 0) = m.headroom.length := by
  have hpkt : m.pktLen = 12 + x.length := by
    rw [← m.length_data, hdata, List.length_append, hmacs]
  have hlen := length_pushBehind a hx
  cases a with
  | drop | output _ => exact ⟨hdata, hl2, rfl⟩
  | pushVlan w =>
      have hroom : m.room = macs ++ (x ++ m.tailroom) := by
        rw [m.room_eq, hdata, List.append_assoc]
      obtain ⟨hr, hh, hp, hl⟩ := executePushVlan_spec w hhead hmacs hroom
      refine ⟨?_, by rw [executePush, hl, hl2], hh⟩
      rw [executePush, Mbuf.data, hr, hp, ← List.append_assoc (Word.bytes w), ← List.append_assoc]
      refine List.take_left' ?_
      rw [List.length_append, List.length_append, hmacs, Word.length_bytes, hpkt]
      omega
  | pushMpls w =>
      have hsplit : x = x.take (4 * k) ++ ((x.drop (4 * k)).take 2 ++ x.drop (4 * k + 2)) := by
        rw [← List.drop_drop, List.take_append_drop, List.take_append_drop]
      have hroom : m.room = (macs ++ x.take (4 * k)) ++ (x.drop (4 * k)).take 2
          ++ (x.drop (4 * k + 2) ++ m.tailroom) := by
        rw [m.room_eq, hdata]
        conv_lhs => rw [hsplit]
        simp only [List.append_assoc]
      obtain ⟨hr, hh, hp, hl⟩ := executePushMpls_spec w hhead
        (by rw [List.length_take, List.length_drop]; omega)
        (by rw [List.length_append, List.length_take, hmacs, hl2]; omega) hroom
      refine ⟨?_, by rw [executePush, hl, hl2], hh⟩
      rw [executePush, Mbuf.data, hr, hp]
      have hassoc : macs ++ x.take (4 * k) ++ [0x88, 0x47]
            ++ (Word.bytes w ++ (x.drop (4 * k + 2) ++ m.tailroom))
          = macs ++ pushBehind k x (.pushMpls w) ++ m.tailroom := by
        simp only [pushBehind, List.append_assoc]
      rw [hassoc]
      refine List.take_left' ?_
      rw [List.length_append, hmacs, hlen, hpkt]
      rfl

theorem pushAll_data : ∀ {actions : List Action} {m : Mbuf} {macs x : List UInt8} {k : Nat},
    macs.length = 12 → m.l2Len.toNat = 14 + 4 * k → 4 * k + 2 ≤ x.length →
    m.data = macs ++ x → 4 * (actions.filter Action.isPush).length ≤ m.headroom.length →
    (pushAll m actions).data = macs ++ actions.foldl (pushBehind k) x
  | [], _, _, _, _, _, _, _, hdata, _ => hdata
  | a :: actions, m, macs, x, k, hmacs, hl2, hx, hdata, hhead => by
      have hneed : (if a.isPush then 4 else 0) + 4 * (actions.filter Action.isPush).length
          ≤ m.headroom.length := by
        refine Nat.le_trans (Nat.le_of_eq ?_) hhead
        rw [List.filter_cons]
        split
        · rw [List.length_cons]
          omega
        · omega
      obtain ⟨hdata', hl2', hhead'⟩ := executePush_data a hmacs hl2 hx hdata (by omega)
      show (pushAll (executePush m a) actions).data
        = macs ++ actions.foldl (pushBehind k) (pushBehind k x a)
      exact pushAll_data hmacs hl2' (by rw [length_pushBehind a hx]; omega) hdata' (by omega)

theorem le_length_foldl_pushBehind {k n : Nat} (hn : 4 * k + 2 ≤ n) :
    ∀ (actions : List Action) {x : List UInt8}, n ≤ x.length →
      n ≤ (actions.foldl (pushBehind k) x).length
  | [], _, hx => hx
  | a :: actions, x, hx => by
      refine le_length_foldl_pushBehind hn actions ?_
      rw [length_pushBehind a (by omega)]
      omega

/-! ## The order of the pushes decides -/

theorem vlanWords_concat (actions : List Action) (a : Action) :
    vlanWords (actions ++ [a]) = vlanWords actions ++ a.vlanWord?.toList := by
  rw [vlanWords, List.filterMap_append]
  cases a <;> rfl

theorem mplsWords_concat (actions : List Action) (a : Action) :
    mplsWords (actions ++ [a]) = mplsWords actions ++ a.mplsWord?.toList := by
  rw [mplsWords, List.filterMap_append]
  cases a <;> rfl

namespace TaggedFrame

variable (f : TaggedFrame)

/-- What an action should do to the frame made so far. -/
theorem pushedBehind_vlan (actions : List Action) (w : UInt32) :
    f.pushedBehind (actions ++ [.pushVlan w]) = Word.bytes w ++ f.pushedBehind actions := by
  simp [pushedBehind, vlanWords_concat, mplsWords_concat, Action.vlanWord?, Action.mplsWord?]

theorem pushedBehind_mpls (actions : List Action) (w : UInt32) :
    f.pushedBehind (actions ++ [.pushMpls w])
      = ((vlanWords actions).reverse ++ f.tags).flatMap Word.bytes ++ ([0x88, 0x47]
        ++ (Word.bytes w ++ ((mplsWords actions).reverse.flatMap Word.bytes ++ f.rest))) := by
  simp [pushedBehind, vlanWords_concat, mplsWords_concat, Action.vlanWord?, Action.mplsWord?]

theorem pushedBehind_other (actions : List Action) {a : Action} (hv : a.vlanWord? = none)
    (hm : a.mplsWord? = none) : f.pushedBehind (actions ++ [a]) = f.pushedBehind actions := by
  simp [pushedBehind, vlanWords_concat, mplsWords_concat, hv, hm]

/-- A label pushed where no tag has been pushed finds the ethertype. -/
theorem pushBehind_mpls {actions : List Action} (w : UInt32)
    (hvlan : vlanWords actions = []) :
    pushBehind f.tags.length (f.pushedBehind actions) (.pushMpls w)
      = f.pushedBehind (actions ++ [.pushMpls w]) := by
  obtain ⟨a, b, htype⟩ : ∃ a b, (if mplsWords actions = [] then [f.typeHi, f.typeLo]
      else [0x88, 0x47]) = [a, b] := by
    split <;> exact ⟨_, _, rfl⟩
  have htags : (f.tags.flatMap Word.bytes).length = 4 * f.tags.length :=
    length_flatMap_bytes f.tags
  rw [pushedBehind_mpls, pushBehind, pushedBehind, htype, hvlan, List.reverse_nil,
    List.nil_append, List.take_left' htags, ← List.drop_drop, List.drop_left' htags,
    List.append_assoc]
  rfl

/-- Where a label was pushed over a tag the frame it should be has a
tag, and the frame at hand the label's ethertype. -/
theorem pushBehind_mpls_ne {actions : List Action} {x : List UInt8} (w : UInt32)
    (hwords : ∀ w ∈ vlanWords actions, StartsWithTag w)
    (hx : 4 * f.tags.length + 2 ≤ x.length) (hvlan : vlanWords actions ≠ []) :
    pushBehind f.tags.length x (.pushMpls w)
      ≠ f.pushedBehind (actions ++ [.pushMpls w]) := by
  intro heq
  have hk : (x.take (4 * f.tags.length)).length = 4 * f.tags.length := by
    rw [List.length_take]
    omega
  obtain ⟨v, vs, hv⟩ : ∃ v vs, (vlanWords actions).reverse ++ f.tags
      = ((vlanWords actions).reverse ++ f.tags).take f.tags.length ++ v :: vs := by
    have hlt : f.tags.length < ((vlanWords actions).reverse ++ f.tags).length := by
      have := List.length_pos_iff.mpr hvlan
      rw [List.length_append, List.length_reverse]
      omega
    exact ⟨_, _, by rw [← List.drop_eq_getElem_cons hlt, List.take_append_drop]⟩
  have hfront : ((((vlanWords actions).reverse ++ f.tags).take f.tags.length).flatMap
      Word.bytes).length = 4 * f.tags.length := by
    rw [length_flatMap_bytes, List.length_take, List.length_append]
    omega
  obtain ⟨b0, b1, b2, b3, hbytes, htag⟩ : StartsWithTag v := by
    have hmem : v ∈ (vlanWords actions).reverse ++ f.tags := by
      rw [hv]
      simp
    rcases List.mem_append.mp hmem with hmem | hmem
    · exact hwords v (List.mem_reverse.mp hmem)
    · exact f.startsWithTag v hmem
  rw [pushedBehind_mpls, hv, List.flatMap_append, List.append_assoc, pushBehind,
    List.append_assoc] at heq
  have htail := (List.append_inj heq (hk.trans hfront.symm)).2
  rw [List.flatMap_cons, hbytes] at htail
  simp only [List.cons_append, List.nil_append, List.cons.injEq] at htail
  obtain ⟨rfl, rfl, -⟩ := htail
  exact absurd htag (by decide)

end TaggedFrame

theorem labelsFirst_of_vlanWords {actions : List Action} (h : vlanWords actions = []) :
    LabelsFirst actions := by
  have hnone := List.filterMap_eq_nil_iff.mp h
  exact List.pairwise_of_forall_mem_list fun a ha _ _ => Or.inl (hnone a ha)

theorem labelsFirst_concat {actions : List Action} {a : Action} :
    LabelsFirst (actions ++ [a]) ↔
      LabelsFirst actions ∧ (vlanWords actions = [] ∨ a.mplsWord? = none) := by
  rw [LabelsFirst, List.pairwise_append]
  simp only [List.pairwise_singleton, true_and, List.mem_singleton, forall_eq, vlanWords,
    List.filterMap_eq_nil_iff]
  refine and_congr_right fun _ => ?_
  by_cases ha : a.mplsWord? = none
  · simp [ha]
  · simp [ha]

theorem labelsFirst_concat_iff {actions : List Action} {a : Action}
    (h : a.mplsWord? = none) : LabelsFirst (actions ++ [a]) ↔ LabelsFirst actions := by
  rw [labelsFirst_concat, h]
  simp

/-- Pushed behind the MAC addresses one by one, the words come out as
they should exactly when no label follows a tag. -/
theorem foldl_pushBehind_iff (f : TaggedFrame) {actions : List Action}
    (hwords : ∀ w ∈ vlanWords actions, StartsWithTag w) :
    actions.foldl (pushBehind f.tags.length) (f.pushedBehind []) = f.pushedBehind actions
      ↔ LabelsFirst actions := by
  have hlen : 4 * f.tags.length + 2 ≤ (f.pushedBehind []).length := by
    have := length_flatMap_bytes f.tags
    simp [TaggedFrame.pushedBehind, vlanWords, mplsWords]
    omega
  induction actions using List.reverseRecOn with
  | nil => simp [LabelsFirst]
  | append_singleton actions a ih =>
      have hw : ∀ w ∈ vlanWords actions, StartsWithTag w := fun w hw =>
        hwords w (by rw [vlanWords_concat]; simp [hw])
      replace ih := ih hw
      rw [List.foldl_append, List.foldl_cons, List.foldl_nil]
      cases a with
      | drop | output _ =>
          rw [f.pushedBehind_other _ rfl rfl, labelsFirst_concat_iff rfl]
          exact ih
      | pushVlan w =>
          rw [f.pushedBehind_vlan, labelsFirst_concat_iff rfl, pushBehind]
          exact (List.append_right_inj _).trans ih
      | pushMpls w =>
          by_cases hvlan : vlanWords actions = []
          · have hfirst := labelsFirst_of_vlanWords hvlan
            rw [ih.mpr hfirst, f.pushBehind_mpls w hvlan, labelsFirst_concat]
            simp [hfirst, hvlan]
          · have hne := f.pushBehind_mpls_ne w hw
              (le_length_foldl_pushBehind (Nat.le_refl _) actions hlen) hvlan
            simp [labelsFirst_concat, hne, hvlan, Action.mplsWord?]

/-! ## Accepted frames -/

theorem ipHeader_tags {f : List UInt8} {tags l3 : Nat} {proto : UInt8}
    (h : ipHeader f = some (some (tags, l3, proto))) : tags = vlanTags (f.drop 12) := by
  simp only [ipHeader, Option.bind_eq_some_iff] at h
  obtain ⟨t, -, h⟩ := h
  split at h
  · cases h
  · split at h
    · simp only [Option.bind_eq_some_iff, Option.map_eq_some_iff, Option.some.injEq,
        Prod.mk.injEq] at h
      obtain ⟨_, -, _, -, rfl, -, -⟩ := h
      rfl
    · split at h
      · simp only [Option.map_eq_some_iff, Option.some.injEq, Prod.mk.injEq] at h
        obtain ⟨_, -, rfl, -, -⟩ := h
        rfl
      · cases h

/-- An accepted frame leaves the walk as it was, its tags counted. -/
theorem prepare_taggedFrame {m m' : Mbuf} {f : TaggedFrame} (hdata : m.data = f.bytes)
    (hprep : m.prepare = some (true, m')) (htags : f.tags.length ≤ 28) :
    m'.data = f.bytes ∧ m'.l2Len.toNat = 14 + 4 * f.tags.length
      ∧ m'.headroom = m.headroom := by
  obtain ⟨hhead, hroom, hpkt⟩ := preparePacket_keeps hprep
  refine ⟨by rw [Mbuf.data, hroom, hpkt]; exact hdata, ?_, hhead⟩
  have hbehind : m.room.drop 12 = f.tags.flatMap Word.bytes
      ++ ([f.typeHi, f.typeLo] ++ (f.rest ++ m.tailroom)) := by
    rw [m.room_eq, hdata, TaggedFrame.bytes, List.append_assoc, List.drop_left' f.length_macs]
    simp only [List.append_assoc]
  rw [Mbuf.prepare, preparePacket_result m (Nat.le_refl _)] at hprep
  simp only [Option.bind_eq_some_iff] at hprep
  obtain ⟨_ | ⟨tags, l3, proto⟩, hip, hprep⟩ := hprep
  · simp at hprep
  · have hcount := ipHeader_tags hip
    rw [hbehind, vlanTags_flatMap _ _ _ f.startsWithTag f.not_vlanType] at hcount
    rw [(prepareL4_true hprep).1, hcount, withL3_l2Len m l3 htags]

theorem startsWithTag_of_parseActions {nbPorts : UInt8} {s : Text} {actions : List Action}
    (h : parseActions nbPorts s = some actions) :
    ∀ w ∈ vlanWords actions, StartsWithTag w := by
  intro w hw
  obtain ⟨a, ha, hword⟩ := List.mem_filterMap.mp hw
  obtain ⟨t, ht⟩ := parseActions_mem h a ha
  cases a with
  | pushVlan v =>
      obtain rfl := Option.some.inj hword
      exact parseAction_pushVlan ht
  | drop | pushMpls _ | output _ => cases hword

/-- The actions of an accepted rule, run in order on an accepted frame,
make the frame they should exactly when no label is pushed after a
tag. -/
theorem pushAll_eq_pushed_iff {nbPorts : UInt8} {s : Text} {actions : List Action}
    {f : TaggedFrame} {m m' : Mbuf} (hparse : parseActions nbPorts s = some actions)
    (hdata : m.data = f.bytes) (hprep : m.prepare = some (true, m'))
    (htags : f.tags.length ≤ 28)
    (hhead : 4 * (actions.filter Action.isPush).length ≤ m.headroom.length) :
    (pushAll m' actions).data = f.pushed actions ↔ LabelsFirst actions := by
  obtain ⟨hdata', hl2, hhead'⟩ := prepare_taggedFrame hdata hprep htags
  have hbytes : f.bytes = f.macs ++ f.pushedBehind [] := rfl
  have hlen : 4 * f.tags.length + 2 ≤ (f.pushedBehind []).length := by
    have := length_flatMap_bytes f.tags
    simp [TaggedFrame.pushedBehind, vlanWords, mplsWords]
    omega
  rw [pushAll_data f.length_macs hl2 hlen (hdata'.trans hbytes) (hhead'.symm ▸ hhead),
    TaggedFrame.pushed, List.append_right_inj,
    foldl_pushBehind_iff f (startsWithTag_of_parseActions hparse)]

/-- A UDP packet over IPv4, untagged. -/
def udpFrame : TaggedFrame where
  dst := List.replicate 6 0x02
  src := List.replicate 6 0x04
  tags := []
  typeHi := 0x08
  typeLo := 0x00
  rest := 0x45 :: List.replicate 8 0 ++ 0x11 :: List.replicate 18 0
  length_dst := rfl
  length_src := rfl
  startsWithTag := by simp
  not_vlanType := by decide

/-- The same in a buffer with room for two pushes. -/
def udpMbuf : Mbuf where
  headroom := List.replicate 8 0
  room := udpFrame.bytes
  pktLen := 42
  l2Len := 0
  l3Len := 0
  l4Len := 0
  pktLen_le := by decide
  size_lt := by decide

def udpPrepared : Mbuf := { udpMbuf with l2Len := 14, l3Len := 20, l4Len := 8 }

def labelThenTag : Text :=
  "PUSH-MPLS(100,3,1,64);PUSH-VLAN(33024,3,1,100);OUTPUT(1);".toList

def tagThenLabel : Text :=
  "PUSH-VLAN(33024,3,1,100);PUSH-MPLS(100,3,1,64);OUTPUT(1);".toList

theorem pushAll_labelThenTag :
    (pushAll udpPrepared [.pushMpls 0x40470600, .pushVlan 0x64700081, .output 0]).data
      = udpFrame.pushed [.pushMpls 0x40470600, .pushVlan 0x64700081, .output 0] := by
  have hparse : parseActions 1 labelThenTag
      = some [.pushMpls 0x40470600, .pushVlan 0x64700081, .output 0] := by decide +kernel
  have hprep : udpMbuf.prepare = some (true, udpPrepared) := by decide +kernel
  exact (pushAll_eq_pushed_iff (f := udpFrame) hparse rfl hprep (by decide) (by decide)).mpr
    (by decide)

/-- The other order is accepted too; the label's ethertype then replaces
the tag's type, and the frame's own stays behind the tag. -/
theorem pushAll_tagThenLabel_ne :
    parseActions 1 tagThenLabel
        = some [.pushVlan 0x64700081, .pushMpls 0x40470600, .output 0]
      ∧ udpMbuf.data = udpFrame.bytes ∧ udpMbuf.prepare = some (true, udpPrepared)
      ∧ udpMbuf.headroom.length = 8
      ∧ (pushAll udpPrepared [.pushVlan 0x64700081, .pushMpls 0x40470600, .output 0]).data
        ≠ udpFrame.pushed [.pushVlan 0x64700081, .pushMpls 0x40470600, .output 0] := by
  refine ⟨by decide +kernel, rfl, by decide +kernel, rfl, by decide +kernel⟩

end Yapas
