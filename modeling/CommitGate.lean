import CommitGate.Main
import CommitGate.Script
import CommitGate.Proofs.Path
import CommitGate.Proofs.Resolution
import CommitGate.Proofs.Collect
import CommitGate.Proofs.Places
import CommitGate.Proofs.Act
import CommitGate.Proofs.Gate
import CommitGate.Proofs.Markers
import CommitGate.Proofs.Run
import CommitGate.Proofs.RunEffects
import CommitGate.Proofs.ScanAgreement
import CommitGate.Proofs.Location
import CommitGate.Proofs.Config
import CommitGate.Proofs.Findings
import CommitGate.Proofs.GateLaw
import CommitGate.Proofs.Outline
import CommitGate.Proofs.Ways
import CommitGate.Proofs.FileChange
import CommitGate.Proofs.Hook
import CommitGate.Proofs.HookKeeping
import CommitGate.Proofs.HookLifeCycle
import CommitGate.Proofs.HookPlace
import CommitGate.Proofs.HookInstallation
import CommitGate.Proofs.MakePath
import CommitGate.Proofs.HookFailure
import CommitGate.Proofs.VersionCheck
import CommitGate.Proofs.VersionSearch
import CommitGate.Proofs.PathOrder
import CommitGate.Proofs.FileMap
import CommitGate.Proofs.Json
import CommitGate.Proofs.ScanReport
import CommitGate.Proofs.Toml.Growth
import CommitGate.Proofs.Fields
import CommitGate.Proofs.Toml.Meaning
import CommitGate.Proofs.Agreement
import CommitGate.Proofs.Toml.Spelling
import CommitGate.Proofs.Overrides
import CommitGate.Proofs.Toml.CommentFree
import CommitGate.Proofs.VersionNotation
import CommitGate.Proofs.Validation
import CommitGate.Proofs.WalkOrder
import CommitGate.Proofs.ToolPlace
import CommitGate.Proofs.Lines
import CommitGate.Proofs.Colours
import CommitGate.Proofs.ShownConfig
import CommitGate.Proofs.JoinedPath
import CommitGate.Proofs.RootPlace
import CommitGate.Proofs.Placeholder
import CommitGate.Proofs.CommandLine
