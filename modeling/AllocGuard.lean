import AllocGuard.Main
import AllocGuard.Command.Run
import AllocGuard.Diff.Unified
import AllocGuard.Settings.Reader
import AllocGuard.Hardening
import AllocGuard.Body.Edits
import AllocGuard.CallGraph
import AllocGuard.Site.Search
import AllocGuard.Outline
import AllocGuard.Declaration.Reader
import AllocGuard.Literal.Numeric
import AllocGuard.Proofs.Significance
import AllocGuard.Proofs.SourcePartition
import AllocGuard.Proofs.MarkPropagation
import AllocGuard.Proofs.FunctionRanges
import AllocGuard.Proofs.EditRanges
import AllocGuard.Proofs.RewriteFrame
import AllocGuard.Proofs.DeclaratorGrammar
import AllocGuard.Proofs.DeclaratorReading
import AllocGuard.Proofs.BytewiseLexeme
import AllocGuard.Proofs.BytewiseScan
import AllocGuard.Proofs.DeclaratorSoundness
import AllocGuard.Proofs.GuardRecognition
import AllocGuard.Proofs.HardeningFixpoint
import AllocGuard.Proofs.OutlinePartition
import AllocGuard.Proofs.CallEdits
import AllocGuard.Proofs.GuardSubjects
import AllocGuard.Proofs.SiteForms
import AllocGuard.Proofs.ForwardedResults
import AllocGuard.Proofs.SignificantCore
import AllocGuard.Proofs.SiteBlindness
import AllocGuard.Proofs.FunctionBlindness
import AllocGuard.Proofs.DeclarationBlindness
import AllocGuard.Proofs.GraphBlindness
import AllocGuard.Proofs.WordSpacing
import AllocGuard.Proofs.TokenEdges
import AllocGuard.Proofs.HeaderBlindness
import AllocGuard.Proofs.LayoutBlindness
import AllocGuard.Proofs.SitePlaces
import AllocGuard.Proofs.EditSelection
import AllocGuard.Proofs.PhaseTransparency
import AllocGuard.Proofs.HeaderAgreement
import AllocGuard.Proofs.SourceFiles
import AllocGuard.Proofs.InPlaceRuns
import AllocGuard.Proofs.PathLocations
import AllocGuard.Proofs.OutputTargets
import AllocGuard.Proofs.TokenLookahead
import AllocGuard.Proofs.Retokenizing
import AllocGuard.Proofs.CopiedComments
import AllocGuard.Proofs.WordReading
import AllocGuard.Proofs.KeptSpecifiers
import AllocGuard.Proofs.IntegerLiterals
import AllocGuard.Proofs.AssignedLvalues
import AllocGuard.Proofs.InsertedText
import AllocGuard.Proofs.MovedRanges
import AllocGuard.Proofs.SiteWindows
import AllocGuard.Proofs.InsertedGuards
import AllocGuard.Proofs.CopiedTokens
import AllocGuard.Proofs.WrittenHeaders
import AllocGuard.Proofs.HeaderParts
import AllocGuard.Proofs.NewHeaders
import AllocGuard.Proofs.FloatingLiterals
import AllocGuard.Proofs.NestedAggregates
import AllocGuard.Proofs.GraphRepresentation
import AllocGuard.Proofs.NullExpressions
import AllocGuard.Proofs.BracketPairs
import AllocGuard.Proofs.SpelledSource
import AllocGuard.Proofs.FaithfulKinds
import AllocGuard.Proofs.ClingingTokens
import AllocGuard.Proofs.CompactSpelling
import AllocGuard.Proofs.ArgumentRanges
import AllocGuard.Proofs.AttributeGroups
import AllocGuard.Proofs.FreshNames
