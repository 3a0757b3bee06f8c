import TypeScriptRs.Lib.Comparison
import Mathlib.Data.String.Basic

/-! Diagnostics, their equality and order, and the removal of duplicates. -/
namespace TypeScriptRs.Diagnostics
open Comparison

inductive Diagnostic where
  | mk (file : Option String) (pos end_ code : Int) (messageArgs : List String) (messageChain relatedInformation : List Diagnostic)
      (canonicalCode : Option Int) (canonicalMessageArgs : Option (List String))

namespace Diagnostic

def path : Diagnostic → String
  | .mk file _ _ _ _ _ _ _ _ => file.getD ""

def pos : Diagnostic → Int
  | .mk _ pos _ _ _ _ _ _ _ => pos

def end_ : Diagnostic → Int
  | .mk _ _ end_ _ _ _ _ _ _ => end_

def code : Diagnostic → Int
  | .mk _ _ _ code _ _ _ _ _ => code

def messageArgs : Diagnostic → List String
  | .mk _ _ _ _ messageArgs _ _ _ _ => messageArgs

def messageChain : Diagnostic → List Diagnostic
  | .mk _ _ _ _ _ messageChain _ _ _ => messageChain

def relatedInformation : Diagnostic → List Diagnostic
  | .mk _ _ _ _ _ _ relatedInformation _ _ => relatedInformation

def canonicalCode : Diagnostic → Int
  | .mk _ _ _ code _ _ _ canonicalCode _ => canonicalCode.getD code

def canonicalMessageArgs : Diagnostic → List String
  | .mk _ _ _ _ messageArgs _ _ _ canonicalMessageArgs => canonicalMessageArgs.getD messageArgs

def setRelatedInfo : Diagnostic → List Diagnostic → Diagnostic
  | .mk file pos end_ code args chain _ canonicalCode canonicalArgs, related =>
    .mk file pos end_ code args chain related canonicalCode canonicalArgs

end Diagnostic

mutual
def equalMessageChain : Diagnostic → Diagnostic → Bool
  | .mk _ _ _ code args chain _ _ _, .mk _ _ _ code' args' chain' _ _ _ =>
    code = code' && args = args' && equalMessageChains chain chain'

def equalMessageChains : List Diagnostic → List Diagnostic → Bool
  | [], [] => true
  | c :: cs, c' :: cs' => equalMessageChain c c' && equalMessageChains cs cs'
  | _, _ => false
end

def equalDiagnosticsNoRelatedInfo (d d' : Diagnostic) : Bool :=
  d.path = d'.path && d.pos = d'.pos && d.end_ = d'.end_ && d.code = d'.code && d.messageArgs = d'.messageArgs &&
    equalMessageChains d.messageChain d'.messageChain

mutual
def equalDiagnostics : Diagnostic → Diagnostic → Bool
  | .mk file pos end_ code args chain related canonicalCode canonicalArgs, d' =>
    equalDiagnosticsNoRelatedInfo (.mk file pos end_ code args chain related canonicalCode canonicalArgs) d' &&
      equalRelatedInfo related d'.relatedInformation

def equalRelatedInfo : List Diagnostic → List Diagnostic → Bool
  | [], [] => true
  | r :: rs, r' :: rs' => equalDiagnostics r r' && equalRelatedInfo rs rs'
  | _, _ => false
end

def compareStringSlices : List String → List String → Ordering
  | a :: as, b :: bs => (compare a b).then (compareStringSlices as bs)
  | as, bs => compare as.length bs.length

mutual
def compareChainsBelow : Diagnostic → Diagnostic → Ordering
  | .mk _ _ _ _ _ chain _ _ _, .mk _ _ _ _ _ chain' _ _ _ =>
    (compare chain'.length chain.length).then (compareElementSizes chain chain')

def compareElementSizes : List Diagnostic → List Diagnostic → Ordering
  | c :: cs, c' :: cs' => (compareChainsBelow c c').then (compareElementSizes cs cs')
  | _, _ => .eq
end

def compareMessageChainSize (c c' : List Diagnostic) : Ordering :=
  (compare c'.length c.length).then (compareElementSizes c c')

mutual
/-- Arguments of the chain, of chains that have the same size. -/
def compareMessageChainContent : List Diagnostic → List Diagnostic → Ordering
  | c :: cs, c' :: cs' => (compareElementContent c c').then (compareMessageChainContent cs cs')
  | _, _ => .eq

def compareElementContent : Diagnostic → Diagnostic → Ordering
  | .mk _ _ _ _ args chain _ _ _, .mk _ _ _ _ args' chain' _ _ _ =>
    (compareStringSlices args args').then (compareMessageChainContent chain chain')
end

def compareHeads (d d' : Diagnostic) : Ordering :=
  (compare d.path d'.path).then <| (compare d.pos d'.pos).then <| (compare d.end_ d'.end_).then <|
    (compare d.canonicalCode d'.canonicalCode).then <| (compareStringSlices d.canonicalMessageArgs d'.canonicalMessageArgs).then <|
      (compareMessageChainSize d.messageChain d'.messageChain).then (compareMessageChainContent d.messageChain d'.messageChain)

mutual
def compareDiagnostics : Diagnostic → Diagnostic → Ordering
  | .mk file pos end_ code args chain related canonicalCode canonicalArgs, d' =>
    (compareHeads (.mk file pos end_ code args chain related canonicalCode canonicalArgs) d').then <|
      (compare d'.relatedInformation.length related.length).then (compareRelatedInfo related d'.relatedInformation)

def compareRelatedInfo : List Diagnostic → List Diagnostic → Ordering
  | r :: rs, r' :: rs' => (compareDiagnostics r r').then (compareRelatedInfo rs rs')
  | _, _ => .eq
end

/-- `dedup_by`, after an element that stays. -/
def dedupAfter (last : Diagnostic) : List Diagnostic → List Diagnostic
  | [] => []
  | d :: rest => if equalDiagnostics d last then dedupAfter last rest else d :: dedupAfter d rest

def dedup : List Diagnostic → List Diagnostic
  | [] => []
  | d :: rest => d :: dedupAfter d rest

/-- A diagnostic with the related information of those that are equal to it. -/
def mergeRelatedInfos (d : Diagnostic) (run : List Diagnostic) : Diagnostic :=
  if run = [] then d
  else
    let relatedInfos := (d :: run).flatMap Diagnostic.relatedInformation
    if relatedInfos = [] then d else d.setRelatedInfo (dedup (sortBy compareDiagnostics relatedInfos))

def compactAndMergeRelatedInfos (diagnostics : List Diagnostic) : List Diagnostic :=
  (runs equalDiagnosticsNoRelatedInfo diagnostics).map fun g => mergeRelatedInfos g.1 g.2

def sortAndDeduplicateDiagnostics (diagnostics : List Diagnostic) : List Diagnostic :=
  compactAndMergeRelatedInfos (sortBy compareDiagnostics diagnostics)

end TypeScriptRs.Diagnostics
