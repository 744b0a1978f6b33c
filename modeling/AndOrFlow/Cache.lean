import AndOrFlow.Bounds
import AndOrFlow.Store

/-!
# Resolving spans

A span resolves to the node that stands for all its decompositions under the size bounds. It is a
terminal if its length is admissible, an and-node for every cut whose two parts both resolve, and an
or-node over these if there are several; a span without any resolves to nothing. Every span is
resolved once: the cache remembers the answer, also that there is none, and shares equal nodes.
-/
namespace AndOrFlow

structure Cache where
  store : Store
  memo : Std.ExtTreeMap Span (Option NodeId)
  deriving DecidableEq

namespace Cache

def empty : Cache := ⟨.empty, ∅⟩

/-- Number of spans with a remembered answer. -/
def memoized (c : Cache) : Nat := c.memo.size

/-- Number of stored nodes. -/
def interned (c : Cache) : Nat := c.store.size

def lookup? (c : Cache) (s : Span) : Option (Option NodeId) := c.memo[s]?

def remember (c : Cache) (s : Span) (answer : Option NodeId) : Cache :=
  { c with memo := c.memo.insert s answer }

def intern (c : Cache) (n : Node) : NodeId × Cache :=
  let r := c.store.intern n
  (r.1, { c with store := r.2 })

/-- The terminal candidate of a span, as a list of at most one node. -/
def leaf (b : Bounds) (s : Span) (c : Cache) : List NodeId × Cache :=
  if b.Admits s.width then
    let r := c.intern (.terminal s)
    ([r.1], r.2)
  else ([], c)

/-- The and-node of a span cut at `k`. The right part is looked at only if the left resolves. -/
def joinAt (recur : Span → Cache → Option NodeId × Cache) (s : Span) (k : Nat) (c : Cache) :
    Option NodeId × Cache :=
  match recur ⟨s.lo, k⟩ c with
  | (none, c) => (none, c)
  | (some left, c) =>
    match recur ⟨k, s.hi⟩ c with
    | (none, c) => (none, c)
    | (some right, c) =>
      let r := c.intern (.and s [left, right])
      (some r.1, r.2)

/-- The and-nodes of a span at the given cuts, in their order. -/
def joins (recur : Span → Cache → Option NodeId × Cache) (s : Span) :
    List Nat → Cache → List NodeId × Cache
  | [], c => ([], c)
  | k :: ks, c =>
    let first := joinAt recur s k c
    let others := joins recur s ks first.2
    (first.1.toList ++ others.1, others.2)

/-- Makes one node of the alternatives of a span. -/
def choose (b : Bounds) (s : Span) (alternatives : List NodeId) (c : Cache) :
    Option NodeId × Cache :=
  match alternatives with
  | [] => (none, c)
  | [only] =>
    if s.width = 1 ∧ b.bareUnits = false then
      let r := c.intern (.or s [only])
      (some r.1, r.2)
    else (some only, c)
  | several =>
    let r := c.intern (.or s several)
    (some r.1, r.2)

/-- Resolves a span, given how its parts resolve. -/
def resolveStep (b : Bounds) (recur : Span → Cache → Option NodeId × Cache) (s : Span)
    (c : Cache) : Option NodeId × Cache :=
  match c.lookup? s with
  | some answer => (answer, c)
  | none =>
    let terminal := leaf b s c
    let ands := joins recur s s.cuts terminal.2
    let answer := choose b s (terminal.1 ++ ands.1) ands.2
    (answer.1, answer.2.remember s answer.1)

/-- Resolves spans of width below `n`. -/
def resolveWithin (b : Bounds) : Nat → Span → Cache → Option NodeId × Cache
  | 0 => fun _ c => (none, c)
  | n + 1 => resolveStep b (resolveWithin b n)

/-- Resolves a span that is not inverted. -/
def resolveSpan (b : Bounds) (s : Span) (c : Cache) : Option NodeId × Cache :=
  resolveWithin b (s.width + 1) s c

/-- Resolves any span. An inverted one has no length; the range of cuts of one that starts at the
largest word has no start, a fault met only after its terminal has been stored. -/
def resolve (b : Bounds) (s : Span) (c : Cache) : Checked (Option NodeId) × Cache :=
  match c.lookup? s with
  | some answer => (.ok answer, c)
  | none =>
    match s.length, s.cutRange with
    | .error f, _ => (.error f, c)
    | .ok _, .error f => (.error f, (leaf b s c).2)
    | .ok _, .ok _ =>
      let r := resolveSpan b s c
      (.ok r.1, r.2)

end Cache
end AndOrFlow
