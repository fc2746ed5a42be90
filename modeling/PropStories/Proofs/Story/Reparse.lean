import PropStories.Proofs.Story.Places
import PropStories.Proofs.Story.Plans
import PropStories.Proofs.Tsx.Substitution

/-!
# The tree of a reconciled story

What a parser is expected to make of a story that has been reconciled: the tree of the old story,
moved, with the literals of the written regions replaced. In such a literal the nodes before the
edit and behind it are carried along, and what the edit brings in stands between them.
-/

namespace PropStories.Reconciliation

open Story Tsx
open Edit (place)

def edits (x : Syntax) (props : List Synth.PropDescriptor) (o : ReconcileOptions) : List Edit :=
  (Edit.fromTheEnd ((plan x props o .argTypes).edit?.toList ++
    (plan x props o .args).edit?.toList)).reverse

/-! ## New nodes -/

def carried (es : List Edit) (t : Tree) : Tree := t.movedTo (place es t.start)

/-- A node in which a range is replaced, with the new nodes for that range. -/
def reopened (es : List Edit) (e : Edit) (t : Tree) (inner : List Tree) : Tree :=
  .node t.kind t.label? (place es t.start) (place es t.stop)
    ((t.children.filter (·.stop ≤ e.start)).map (carried es) ++ inner ++
      (t.children.filter (e.stop ≤ ·.start)).map (carried es))

/-- Where the text of an edit in a literal begins once all edits are made. -/
def textPlace (es : List Edit) (object : Tree) (e : Edit) : Nat :=
  place es object.start + (e.start - object.start)

def isAround (c : Char) : Bool := c == ',' || Text.isBlank c

def lead (text : List Char) : Nat := (text.takeWhile isAround).length

def trail (text : List Char) : Nat := (text.reverse.takeWhile isAround).length

def entryNode (r : Region) (start stop : Nat) (inner : List Tree) : Tree :=
  let colon := start + r.key.length
  .node .pair none start stop
    [.node .propertyIdentifier (some .key) start colon [],
      .node (.token ":") none colon (colon + 1) [],
      .node .object (some .value) (colon + 2) stop inner]

/-- What becomes of the literal of a region by the edit that is made for it. -/
inductive Written (x : Syntax) (es : List Edit) (r : Region) (object : Tree) (e : Edit) :
    Change → Tree → Prop where
  | replaced {pair : Tree} {inner : List Tree} (first : pairOf? x object r.key = some pair) :
      Written x es r object e .replaced (reopened es e object [reopened es e pair
        [.node .object (some .value) (textPlace es object e)
          (textPlace es object e + e.text.length) inner]])
  | inserted {front inner behind : List Tree}
      (commas : ∀ t ∈ front ++ behind, t.kind = .token ",") :
      Written x es r object e .inserted (reopened es e object (front ++
        entryNode r (textPlace es object e + lead e.text)
          (textPlace es object e + e.text.length - trail e.text) inner :: behind))
  | removed : Written x es r object e .removed (reopened es e object [])

/-! ## The whole tree -/

def new? (x : Syntax) (props : List Synth.PropDescriptor) (o : ReconcileOptions)
    (written : Region → Tree) (t : Tree) : Option Tree :=
  [Region.argTypes, Region.args].findSome? fun r =>
    if objectOf? x (owner o r) = some t ∧ (plan x props o r).edit.isSome then some (written r)
    else none

def rebuilt (x : Syntax) (props : List Synth.PropDescriptor) (o : ReconcileOptions)
    (written : Region → Tree) (t : Tree) : Tree :=
  t.substitute (place (edits x props o)) (new? x props o written)

def AreWritten (x : Syntax) (props : List Synth.PropDescriptor) (o : ReconcileOptions)
    (written : Region → Tree) : Prop :=
  ∀ r object change e, objectOf? x (owner o r) = some object →
    (plan x props o r).edit = some (change, e) →
      Written x (edits x props o) r object e change (written r)

/-- The tree is the one of a story in which the written literals have been put, and there is no
fault in it. -/
def Reparsed (x : Syntax) (props : List Synth.PropDescriptor) (o : ReconcileOptions)
    (t : Tree) : Prop :=
  t.firstFault? = none ∧
    ∃ written, AreWritten x props o written ∧ t = rebuilt x props o written x.root

end PropStories.Reconciliation
