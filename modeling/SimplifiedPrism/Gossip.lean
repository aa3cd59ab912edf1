import Mathlib.Data.Nat.Init
import Mathlib.Logic.Relation

/-!
# Spreading by gossip

Peers hold items.  A peer that comes to hold an item announces it to its neighbours, a
neighbour that lacks the item asks for it, is given it, and then holds it or lets it
wait until it holds something else.  As long as every event carries each item one stage
further, an item that a peer holds is held by a neighbour or on its way there; once
nothing is under way, neighbours hold the same items.
-/

namespace SimplifiedPrism

/-- Which peers hold or defer which items, and what is under way from one peer to another.
What is asked is under way in the other direction. -/
structure Gossip (Peer Item : Type*) where
  holds : Peer → Item → Prop
  announced : Peer → Peer → Item → Prop
  asked : Peer → Peer → Item → Prop
  given : Peer → Peer → Item → Prop
  waits : Peer → Item → Prop

namespace Gossip

variable {Peer Item : Type*}

/-- How far an item has got on its way from the first peer to the second. -/
inductive OnTheWay (gossip : Gossip Peer Item) (first second : Peer) (item : Item) : Prop
  | announced (underWay : gossip.announced first second item)
  | asked (underWay : gossip.asked first second item)
  | given (underWay : gossip.given first second item)
  | waits (deferred : gossip.waits second item)

/-- Whatever a peer holds is held by a neighbour or on its way there. -/
def Spread (joined : Peer → Peer → Prop) (gossip : Gossip Peer Item) : Prop :=
  ∀ first second, joined first second → ∀ item, gossip.holds first item →
    gossip.holds second item ∨ gossip.OnTheWay first second item

/-- Nothing about the item is under way. -/
def Quiet (gossip : Gossip Peer Item) (item : Item) : Prop :=
  ∀ first second, ¬ gossip.announced first second item ∧ ¬ gossip.asked first second item ∧
    ¬ gossip.given first second item

/-- Every item stays at its stage or reaches a later one. -/
structure Forwards (joined : Peer → Peer → Prop) (before after : Gossip Peer Item) : Prop where
  kept : ∀ peer item, before.holds peer item → after.holds peer item
  told : ∀ peer item, after.holds peer item → before.holds peer item ∨
    ∀ other, joined peer other → after.announced peer other item
  announced : ∀ first second item, before.announced first second item →
    after.announced first second item ∨ after.holds second item ∨ after.asked first second item
  asked : ∀ first second item, before.holds first item → before.asked first second item →
    after.asked first second item ∨ after.given first second item
  given : ∀ first second item, before.given first second item →
    after.given first second item ∨ after.holds second item ∨ after.waits second item
  waits : ∀ peer item, before.waits peer item → after.holds peer item ∨ after.waits peer item

variable {joined : Peer → Peer → Prop} {gossip before after : Gossip Peer Item}
variable {first second : Peer} {item : Item}

theorem OnTheWay.carry (onTheWay : before.OnTheWay first second item)
    (forwards : Forwards joined before after) (held : before.holds first item) :
    after.holds second item ∨ after.OnTheWay first second item := by
  cases onTheWay with
  | announced underWay =>
      rcases forwards.announced first second item underWay with stays | arrived | asked
      · exact .inr (.announced stays)
      · exact .inl arrived
      · exact .inr (.asked asked)
  | asked underWay =>
      rcases forwards.asked first second item held underWay with stays | given
      · exact .inr (.asked stays)
      · exact .inr (.given given)
  | given underWay =>
      rcases forwards.given first second item underWay with stays | arrived | deferred
      · exact .inr (.given stays)
      · exact .inl arrived
      · exact .inr (.waits deferred)
  | waits deferred => exact (forwards.waits second item deferred).imp_right .waits

/-- An event that carries every item further keeps the items spread. -/
theorem Spread.carry (spread : Spread joined before) (forwards : Forwards joined before after) :
    Spread joined after := by
  intro first second neighbours item held
  rcases forwards.told first item held with heldBefore | told
  · rcases spread first second neighbours item heldBefore with there | onTheWay
    · exact .inl (forwards.kept second item there)
    · exact onTheWay.carry forwards heldBefore
  · exact .inr (.announced (told second neighbours))

/-- When nothing about some kind of items is under way, a neighbour holds every item of
the kind, provided that an item waits only for an earlier one of the kind, which all
that hold the item hold as well and the waiting peer lacks. -/
theorem Spread.holds_of_joined (spread : Spread joined gossip) {kind : Item → Prop}
    (quiet : ∀ item, kind item → gossip.Quiet item) (rank : Item → Nat)
    (behind : ∀ peer item, kind item → gossip.waits peer item → ∃ earlier, kind earlier ∧
      (∀ other, gossip.holds other item →
        gossip.holds other earlier ∧ rank earlier < rank item) ∧ ¬ gossip.holds peer earlier)
    (neighbours : joined first second) (ofKind : kind item) (held : gossip.holds first item) :
    gossip.holds second item := by
  induction bound : rank item using Nat.strong_induction_on generalizing item with
  | _ bound ih =>
      subst bound
      rcases spread first second neighbours item held with there | onTheWay
      · exact there
      cases onTheWay with
      | announced underWay => exact absurd underWay (quiet item ofKind first second).1
      | asked underWay => exact absurd underWay (quiet item ofKind first second).2.1
      | given underWay => exact absurd underWay (quiet item ofKind first second).2.2
      | waits deferred =>
          obtain ⟨earlier, earlierKind, heldToo, lacking⟩ := behind second item ofKind deferred
          obtain ⟨heldEarlier, lower⟩ := heldToo first held
          exact absurd (ih _ lower earlierKind heldEarlier rfl) lacking

/-- And so does every peer that a path leads to. -/
theorem Spread.holds_of_path (spread : Spread joined gossip) {kind : Item → Prop}
    (quiet : ∀ item, kind item → gossip.Quiet item) (rank : Item → Nat)
    (behind : ∀ peer item, kind item → gossip.waits peer item → ∃ earlier, kind earlier ∧
      (∀ other, gossip.holds other item →
        gossip.holds other earlier ∧ rank earlier < rank item) ∧ ¬ gossip.holds peer earlier)
    (path : Relation.ReflTransGen joined first second) (ofKind : kind item)
    (held : gossip.holds first item) : gossip.holds second item := by
  induction path with
  | refl => exact held
  | tail _ neighbours ih => exact spread.holds_of_joined quiet rank behind neighbours ofKind ih

end Gossip

end SimplifiedPrism
